import SwiftLoad.Range.Basic
import SwiftLoad.Config

/-!
# The content of the test server

`content.rs` of the test server: the byte at an offset is a function of the seed and the offset,
and the tests of the engine compare what was downloaded with it.  `fill` does not compute the
bytes one by one: it writes eight at a time where the offset is a multiple of eight.

* `Content.fill_spec` : the three loops of `fill` together write `byteAt` at every position.
* `Content.assemble_spec` : copying the chunks of some pieces into a buffer writes `byteAt` at the
  positions of the pieces, and leaves the others.
* `Content.fill_eq_byteAt` : the fast path equals the definition, and chunks that tile a range
  assemble to the chunk of the range, in whatever order they are copied.

A sum that does not fit `u64`, or a slice that leaves its buffer, is a panic, here `none`.
-/

namespace SwiftLoad

namespace Content

open Ranges

variable {seed start : UInt64} {buf bytes : List UInt8} {i k n len : ℕ}

/-- `splitmix64`. -/
def splitmix64 (x : UInt64) : UInt64 :=
  let x := x + 0x9E3779B97F4A7C15
  let z := x
  let z := (z ^^^ (z >>> 30)) * 0xBF58476D1CE4E5B9
  let z := (z ^^^ (z >>> 27)) * 0x94D049BB133111EB
  z ^^^ (z >>> 31)

/-- `u64::to_le_bytes`. -/
def toLeBytes (v : UInt64) : List UInt8 :=
  (List.range 8).map fun k => (v >>> UInt64.ofNat (8 * k)).toUInt8

/-- `byte_at`: the single byte at `offset` for `seed`. -/
def byteAt (seed offset : UInt64) : UInt8 :=
  let block := offset / 8
  let v := splitmix64 (seed ^^^ block * 0x9E3779B97F4A7C15)
  (toLeBytes v).getD (offset % 8).toNat 0

/-- `buf[i..i + bytes.len()].copy_from_slice(bytes)`, within the buffer. -/
def overwrite (buf : List UInt8) (i : ℕ) (bytes : List UInt8) : List UInt8 :=
  buf.take i ++ bytes ++ buf.drop (i + bytes.length)

/-- The variables of `fill`. -/
structure Cursor where
  buf : List UInt8
  i : ℕ
  off : UInt64

/-- Write some bytes at the cursor and move it past them. -/
def Cursor.put (c : Cursor) (bytes : List UInt8) : Option Cursor :=
  if c.off.toNat + bytes.length ≤ u64Max then
    some ⟨overwrite c.buf c.i bytes, c.i + bytes.length, c.off + UInt64.ofNat bytes.length⟩
  else none

/-- `while guard { put bytes }`, for at most `fuel` rounds. -/
def loop (guard : Cursor → Bool) (bytes : Cursor → List UInt8) : ℕ → Cursor → Option Cursor
  | 0, c => if guard c then none else some c
  | fuel + 1, c => if guard c then (c.put (bytes c)).bind (loop guard bytes fuel) else some c

/-- The unaligned head of `fill`. -/
def head (seed : UInt64) : ℕ → Cursor → Option Cursor :=
  loop (fun c => decide (c.i < c.buf.length) && c.off % 8 != 0) fun c => [byteAt seed c.off]

/-- The aligned body: one word for eight bytes. -/
def body (seed : UInt64) : ℕ → Cursor → Option Cursor :=
  loop (fun c => decide (c.i + 8 ≤ c.buf.length)) fun c =>
    let block := c.off / 8
    toLeBytes (splitmix64 (seed ^^^ block * 0x9E3779B97F4A7C15))

/-- The unaligned tail. -/
def tail (seed : UInt64) : ℕ → Cursor → Option Cursor :=
  loop (fun c => decide (c.i < c.buf.length)) fun c => [byteAt seed c.off]

/-- `fill`: the buffer with the content that starts at `start`. -/
def fill (seed start : UInt64) (buf : List UInt8) : Option (List UInt8) := do
  let c ← head seed buf.length ⟨buf, 0, start⟩
  let c ← body seed buf.length c
  let c ← tail seed buf.length c
  return c.buf

/-- `chunk`: allocate and fill. -/
def chunk (seed start : UInt64) (len : ℕ) : Option (List UInt8) :=
  fill seed start (List.replicate len 0)

/-- Compute the chunk of each piece, a start and a length, and copy it into a buffer whose first
byte is the one at `base`. -/
def assemble (seed base : UInt64) : List (UInt64 × ℕ) → List UInt8 → Option (List UInt8)
  | [], buf => some buf
  | (s, n) :: pieces, buf => do
    let bytes ← chunk seed s n
    if base ≤ s ∧ (s - base).toNat + n ≤ buf.length then
      assemble seed base pieces (overwrite buf (s - base).toNat bytes)
    else none

/-! ### Writing into a buffer -/

theorem length_overwrite (h : i + bytes.length ≤ buf.length) :
    (overwrite buf i bytes).length = buf.length := by
  simp only [overwrite, List.length_append, List.length_take, List.length_drop]
  omega

theorem getElem?_overwrite (h : i + bytes.length ≤ buf.length) (k : ℕ) :
    (overwrite buf i bytes)[k]? =
      if i ≤ k ∧ k < i + bytes.length then bytes[k - i]? else buf[k]? := by
  have htake : (buf.take i).length = i := by rw [List.length_take]; omega
  rw [overwrite, List.append_assoc]
  split_ifs with hk
  · rw [List.getElem?_append_right (by omega), htake, List.getElem?_append_left (by omega)]
  · rcases Nat.lt_or_ge k i with hki | hki
    · rw [List.getElem?_append_left (by omega), List.getElem?_take_of_lt hki]
    · rw [List.getElem?_append_right (by omega), htake, List.getElem?_append_right (by omega),
        List.getElem?_drop]
      congr 1; omega

@[simp] theorem length_toLeBytes (v : UInt64) : (toLeBytes v).length = 8 := by simp [toLeBytes]

/-! ### Offsets -/

theorem toNat_ofNat_of_le (h : n ≤ u64Max) : (UInt64.ofNat n).toNat = n :=
  UInt64.toNat_ofNat_of_lt' (by unfold u64Max at h; simp [UInt64.size]; omega)

/-- The bytes of a word lie at the offsets of its block. -/
theorem byteAt_of_aligned {off : UInt64} (hoff : off.toNat % 8 = 0) (hk : k < 8)
    (hmax : off.toNat + k ≤ u64Max) :
    (toLeBytes (splitmix64 (seed ^^^ off / 8 * 0x9E3779B97F4A7C15)))[k]? =
      some (byteAt seed (UInt64.ofNat (off.toNat + k))) := by
  have htoNat := toNat_ofNat_of_le hmax
  have hblock : UInt64.ofNat (off.toNat + k) / 8 = off / 8 := by
    apply UInt64.toNat_inj.1
    rw [UInt64.toNat_div, UInt64.toNat_div, htoNat]
    simp only [UInt64.reduceToNat]
    omega
  have hmod : (UInt64.ofNat (off.toNat + k) % 8).toNat = k := by
    rw [UInt64.toNat_mod, htoNat]
    simp only [UInt64.reduceToNat]
    omega
  simp only [byteAt, hblock, hmod]
  rw [List.getD_eq_getElem?_getD, List.getElem?_eq_getElem (by simpa using hk), Option.getD_some]

/-! ### The loops -/

/-- The cursor has moved over a part of the buffer, and every byte of it is the right one. -/
structure Filled (seed start : UInt64) (len : ℕ) (c : Cursor) : Prop where
  length : c.buf.length = len
  le : c.i ≤ len
  off : c.off.toNat = start.toNat + c.i
  bytes : ∀ k < c.i, c.buf[k]? = some (byteAt seed (UInt64.ofNat (start.toNat + k)))

variable {c : Cursor}

theorem Filled.put (hmax : start.toNat + len ≤ u64Max) (h : Filled seed start len c)
    (bytes : List UInt8) (hlen : c.i + bytes.length ≤ len)
    (hbytes : ∀ k < bytes.length,
      bytes[k]? = some (byteAt seed (UInt64.ofNat (c.off.toNat + k)))) :
    ∃ c', c.put bytes = some c' ∧ Filled seed start len c' ∧ c'.i = c.i + bytes.length ∧
      c'.off.toNat = c.off.toNat + bytes.length := by
  have hoff := h.off
  have hbuf := h.length
  have hsum : c.off.toNat + bytes.length ≤ u64Max := by omega
  have hoff' : (c.off + UInt64.ofNat bytes.length).toNat = c.off.toNat + bytes.length := by
    rw [UInt64.toNat_add, toNat_ofNat_of_le (by omega), Nat.mod_eq_of_lt]
    unfold u64Max at hsum
    omega
  refine ⟨_, if_pos hsum, ⟨?_, hlen, ?_, ?_⟩, rfl, hoff'⟩
  · exact (length_overwrite (by omega)).trans h.length
  · dsimp only
    omega
  · intro k hk
    dsimp only at hk ⊢
    rw [getElem?_overwrite (by omega)]
    split_ifs with hin
    · rw [hbytes _ (by omega)]
      congr 3; omega
    · exact h.bytes k (by omega)

/-- A loop that keeps an invariant, and that writes something in every round, ends with the
invariant and with its guard false. -/
theorem loop_spec {guard : Cursor → Bool} {bytes : Cursor → List UInt8} {I : Cursor → Prop}
    (hle : ∀ c, I c → c.i ≤ len)
    (hstep : ∀ c, I c → guard c = true → ∃ c', c.put (bytes c) = some c' ∧ I c' ∧ c.i < c'.i)
    {fuel : ℕ} (hfuel : len ≤ c.i + fuel) (hI : I c) :
    ∃ c', loop guard bytes fuel c = some c' ∧ I c' ∧ guard c' = false := by
  induction fuel generalizing c with
  | zero =>
    cases hg : guard c with
    | false => exact ⟨c, by simp [loop, hg], hI, hg⟩
    | true =>
      -- no room is left for another round
      obtain ⟨c', -, hI', hlt⟩ := hstep c hI hg
      have := hle c' hI'
      omega
  | succ fuel ih =>
    cases hg : guard c with
    | false => exact ⟨c, by simp [loop, hg], hI, hg⟩
    | true =>
      obtain ⟨c', hput, hI', hlt⟩ := hstep c hI hg
      obtain ⟨d, hd, hId, hgd⟩ := ih (c := c') (by omega) hI'
      exact ⟨d, by simp [loop, hg, hput, hd], hId, hgd⟩

/-- One round of the head or of the tail. -/
theorem Filled.putByte (hmax : start.toNat + len ≤ u64Max) (h : Filled seed start len c)
    (hi : c.i < len) :
    ∃ c', c.put [byteAt seed c.off] = some c' ∧ Filled seed start len c' ∧ c.i < c'.i := by
  obtain ⟨c', hput, hfilled, hi', -⟩ := h.put hmax [byteAt seed c.off] hi (by
    intro k hk
    obtain rfl : k = 0 := by simpa using hk
    simp)
  exact ⟨c', hput, hfilled, by simp at hi'; omega⟩

/-- One round of the body, from an offset that is a multiple of eight to the next. -/
theorem Filled.putWord (hmax : start.toNat + len ≤ u64Max) (h : Filled seed start len c)
    (hi : c.i + 8 ≤ len) (hoff : c.off.toNat % 8 = 0) :
    ∃ c', c.put (toLeBytes (splitmix64 (seed ^^^ c.off / 8 * 0x9E3779B97F4A7C15))) = some c' ∧
      Filled seed start len c' ∧ c.i < c'.i ∧ c'.off.toNat % 8 = 0 := by
  have hoff' := h.off
  obtain ⟨c', hput, hfilled, hi', hadd⟩ := h.put hmax
    (toLeBytes (splitmix64 (seed ^^^ c.off / 8 * 0x9E3779B97F4A7C15))) (by simpa using hi)
    (by
      intro k hk
      rw [length_toLeBytes] at hk
      exact byteAt_of_aligned hoff hk (by omega))
  rw [length_toLeBytes] at hi' hadd
  exact ⟨c', hput, hfilled, by omega, by omega⟩

theorem fill_spec (seed : UInt64) (hmax : start.toNat + buf.length ≤ u64Max) :
    ∃ out, fill seed start buf = some out ∧ out.length = buf.length ∧
      ∀ k < buf.length, out[k]? = some (byteAt seed (UInt64.ofNat (start.toNat + k))) := by
  have h₀ : Filled seed start buf.length ⟨buf, 0, start⟩ :=
    ⟨rfl, Nat.zero_le _, rfl, fun k hk => absurd hk (Nat.not_lt_zero k)⟩
  obtain ⟨c₁, hc₁, h₁, hg₁⟩ : ∃ c', head seed buf.length ⟨buf, 0, start⟩ = some c' ∧
      Filled seed start buf.length c' ∧ _ :=
    loop_spec (fun c h => h.le) (fun c h hg => by
      simp only [Bool.and_eq_true, decide_eq_true_eq, h.length] at hg
      exact h.putByte hmax hg.1) (by simp) h₀
  -- the head stops at the end of the buffer or at a multiple of eight
  have halign : c₁.i < buf.length → c₁.off.toNat % 8 = 0 := by
    intro hlt
    simp only [h₁.length, hlt, decide_true, Bool.true_and, bne_eq_false_iff_eq] at hg₁
    have := congrArg UInt64.toNat hg₁
    simpa [UInt64.toNat_mod] using this
  obtain ⟨c₂, hc₂, h₂, -⟩ : ∃ c', body seed buf.length c₁ = some c' ∧
      (Filled seed start buf.length c' ∧ (c'.i < buf.length → c'.off.toNat % 8 = 0)) ∧ _ :=
    loop_spec (fun c h => h.1.le) (fun c h hg => by
      simp only [decide_eq_true_eq, h.1.length] at hg
      obtain ⟨c', hput, hfilled, hlt, hoff⟩ := h.1.putWord hmax hg (h.2 (by omega))
      exact ⟨c', hput, ⟨hfilled, fun _ => hoff⟩, hlt⟩) (by omega) ⟨h₁, halign⟩
  obtain ⟨c₃, hc₃, h₃, hg₃⟩ : ∃ c', tail seed buf.length c₂ = some c' ∧
      Filled seed start buf.length c' ∧ _ :=
    loop_spec (fun c h => h.le) (fun c h hg => by
      simp only [decide_eq_true_eq, h.length] at hg
      exact h.putByte hmax hg) (by omega) h₂.1
  refine ⟨c₃.buf, by simp [fill, hc₁, hc₂, hc₃], h₃.length, fun k hk => h₃.bytes k ?_⟩
  simp only [decide_eq_false_iff_not, h₃.length] at hg₃
  omega

theorem chunk_spec (seed : UInt64) (hmax : start.toNat + len ≤ u64Max) :
    ∃ out, chunk seed start len = some out ∧ out.length = len ∧
      ∀ k < len, out[k]? = some (byteAt seed (UInt64.ofNat (start.toNat + k))) := by
  have hlen : start.toNat + (List.replicate len (0 : UInt8)).length ≤ u64Max := by simpa using hmax
  simpa [chunk] using fill_spec seed hlen

/-! ### Assembling pieces -/

variable {base : UInt64} {pieces : List (UInt64 × ℕ)}

/-- The ranges of the pieces. -/
def extents (pieces : List (UInt64 × ℕ)) : List (ℕ × ℕ) := pieces.map fun p => (p.1.toNat, p.2)

/-- Every piece lies in the range, and every byte of the range lies in some piece. -/
structure Tiles (pieces : List (UInt64 × ℕ)) (base : UInt64) (len : ℕ) : Prop where
  within : ∀ p ∈ pieces, base.toNat ≤ p.1.toNat ∧ p.1.toNat + p.2 ≤ base.toNat + len
  cover : Set.Ico base.toNat (base.toNat + len) ⊆ cover (extents pieces)

/-- The positions of the pieces get their bytes, whatever is copied later, and the others keep
theirs. -/
theorem assemble_spec (seed : UInt64) (hmax : base.toNat + buf.length ≤ u64Max)
    (hin : ∀ p ∈ pieces, base.toNat ≤ p.1.toNat ∧
      p.1.toNat + p.2 ≤ base.toNat + buf.length) :
    ∃ out, assemble seed base pieces buf = some out ∧ out.length = buf.length ∧
      ∀ k < buf.length, (base.toNat + k ∈ cover (extents pieces) →
          out[k]? = some (byteAt seed (UInt64.ofNat (base.toNat + k)))) ∧
        (base.toNat + k ∉ cover (extents pieces) → out[k]? = buf[k]?) := by
  induction pieces generalizing buf with
  | nil => exact ⟨buf, rfl, rfl, fun k _ => ⟨by simp [extents], fun _ => rfl⟩⟩
  | cons p pieces ih =>
    obtain ⟨s, n⟩ := p
    obtain ⟨hs, hn⟩ := hin _ List.mem_cons_self
    dsimp only at hs hn
    have hpiece : s.toNat + n ≤ u64Max := by omega
    obtain ⟨bytes, hchunk, hbytes, hbyte⟩ := chunk_spec seed hpiece
    have hle : base ≤ s := UInt64.le_iff_toNat_le.2 hs
    have hsub : (s - base).toNat = s.toNat - base.toNat := UInt64.toNat_sub_of_le _ _ hle
    have hfits : (s - base).toNat + bytes.length ≤ buf.length := by omega
    have hlen := length_overwrite hfits
    have hmax' : base.toNat + (overwrite buf (s - base).toNat bytes).length ≤ u64Max := by
      rwa [hlen]
    obtain ⟨out, hout, hlenOut, hspec⟩ := ih hmax' (by
      rw [hlen]
      exact fun p hp => hin p (List.mem_cons_of_mem _ hp))
    rw [hlen] at hlenOut hspec
    refine ⟨out, ?_, hlenOut, fun k hk => ?_⟩
    · simp only [assemble, hchunk, Option.bind_eq_bind, Option.bind_some]
      rw [if_pos ⟨hle, by omega⟩, hout]
    · obtain ⟨hin', hout'⟩ := hspec k hk
      have hat := getElem?_overwrite hfits k
      simp only [extents, List.map_cons, mem_cover_cons] at hin' hout' ⊢
      refine ⟨fun hcov => ?_, fun hcov => ?_⟩
      · by_cases hlater : base.toNat + k ∈ cover (pieces.map fun p => (p.1.toNat, p.2))
        · exact hin' hlater
        · -- no later piece covers it, so it is what this one wrote
          have hthis := hcov.resolve_right hlater
          rw [hout' hlater, hat, if_pos (by omega), hbyte _ (by omega)]
          congr 3; omega
      · obtain ⟨hthis, hlater⟩ := not_or.1 hcov
        rw [hout' hlater, hat, if_neg (by omega)]

/-- The fast path equals the definition, and pieces assemble to the whole. -/
theorem fill_eq_byteAt (seed start : UInt64) (buf : List UInt8)
    (hmax : start.toNat + buf.length ≤ u64Max) :
    (∃ out, fill seed start buf = some out ∧ out.length = buf.length ∧
      ∀ i < buf.length, out[i]? = some (byteAt seed (UInt64.ofNat (start.toNat + i)))) ∧
    ∀ pieces, Tiles pieces start buf.length →
      assemble seed start pieces buf = chunk seed start buf.length := by
  refine ⟨fill_spec seed hmax, fun pieces h => ?_⟩
  obtain ⟨whole, hwhole, hlenWhole, hbyteWhole⟩ := chunk_spec seed hmax
  obtain ⟨out, hout, hlenOut, hspec⟩ := assemble_spec seed hmax h.within
  rw [hout, hwhole, Option.some.injEq]
  apply List.ext_getElem?
  intro k
  rcases Nat.lt_or_ge k buf.length with hk | hk
  · rw [hbyteWhole k hk, (hspec k hk).1 (h.cover ⟨by omega, by omega⟩)]
  · rw [List.getElem?_eq_none (by omega), List.getElem?_eq_none (by omega)]

/-- Three bytes across a block boundary, the second piece first. -/
theorem fill_eq_byteAt_seven :
    (∃ out, fill 1 7 [0, 0, 0] = some out ∧ out.length = 3 ∧
      ∀ i < 3, out[i]? = some (byteAt 1 (UInt64.ofNat (7 + i)))) ∧
    assemble 1 7 [(8, 2), (7, 1)] [0, 0, 0] = chunk 1 7 3 := by
  obtain ⟨hfill, hassemble⟩ := fill_eq_byteAt 1 7 [0, 0, 0] (by decide)
  refine ⟨hfill, hassemble _ ⟨?_, ?_⟩⟩
  · decide
  · rintro b ⟨hb₁, hb₂⟩
    simp [extents] at hb₁ hb₂ ⊢
    omega

end Content

end SwiftLoad
