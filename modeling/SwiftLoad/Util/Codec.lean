import SwiftLoad.Util.Canonical

/-!
# The checkpoint codec

A `RangeSet` is stored as varint pairs `(gap, len)`, where `gap` counts from the end of the span
before.  `decode` rebuilds the spans, from bytes it does not trust: it rejects an empty span and a
span past `u64::MAX`, but accepts any gap.

* `deltas` : the pairs as they stand in the bytes.
* `decode_canonical_iff` : an accepted set is canonical exactly when no pair after the first has
  gap 0, and only then do `contains_all` and `gaps_in` agree as the callers rely on.
-/

namespace SwiftLoad

open Ranges

/-- Why bytes are not a range set. -/
inductive DecodeError where
  | truncated
  | overflow
  | zeroLength
deriving DecidableEq, Repr

/-- The loop of `get_varint`: the value so far and the place of the next seven bits.  Returns the
value and the bytes after it. -/
def getVarintFrom (v shift : ℕ) : List UInt8 → Except DecodeError (ℕ × List UInt8)
  | [] => .error .truncated
  | b :: rest =>
    if 64 ≤ shift then .error .overflow
    else
      -- `checked_shl` bounds the shift, but drops the bits moved past the word
      let v := v ||| (b &&& 0x7f).toNat <<< shift % 2 ^ 64
      if b &&& 0x80 = 0 then .ok (v, rest) else getVarintFrom v (shift + 7) rest

/-- `get_varint`. -/
def getVarint (bytes : List UInt8) : Except DecodeError (ℕ × List UInt8) :=
  getVarintFrom 0 0 bytes

theorem getVarintFrom_shortens {v shift n : ℕ} {bytes rest : List UInt8}
    (h : getVarintFrom v shift bytes = .ok (n, rest)) : rest.length < bytes.length := by
  induction bytes generalizing v shift with
  | nil => cases h
  | cons b bytes ih =>
    simp only [getVarintFrom] at h
    split_ifs at h with h₁ h₂
    · cases h
      simp
    · have := ih h
      simp only [List.length_cons]
      omega

theorem getVarint_shortens {n : ℕ} {bytes rest : List UInt8}
    (h : getVarint bytes = .ok (n, rest)) : rest.length < bytes.length :=
  getVarintFrom_shortens h

namespace RangeSet

/-- The loop of `decode`, with the end of the span before. -/
def decodeFrom (prevEnd : ℕ) (bytes : List UInt8) : Except DecodeError (List (ℕ × ℕ)) :=
  if bytes = [] then .ok [] else
    match _h₁ : getVarint bytes with
    | .error e => .error e
    | .ok (gap, bytes₁) =>
      match _h₂ : getVarint bytes₁ with
      | .error e => .error e
      | .ok (len, bytes₂) =>
        if len = 0 then .error .zeroLength
        else if u64Max < prevEnd + gap then .error .overflow
        else if u64Max < prevEnd + gap + len then .error .overflow
        else
          match decodeFrom (prevEnd + gap + len) bytes₂ with
          | .error e => .error e
          | .ok spans => .ok ((prevEnd + gap, len) :: spans)
termination_by bytes.length
decreasing_by exact (getVarint_shortens _h₂).trans (getVarint_shortens _h₁)

/-- `RangeSet::decode`. -/
def decode (bytes : List UInt8) : Except DecodeError RangeSet := (decodeFrom 0 bytes).map mk

/-- The `(gap, len)` pairs as they stand in the bytes, up to the first that cannot be read. -/
def deltas (bytes : List UInt8) : List (ℕ × ℕ) :=
  match _h₁ : getVarint bytes with
  | .error _ => []
  | .ok (gap, bytes₁) =>
    match _h₂ : getVarint bytes₁ with
    | .error _ => []
    | .ok (len, bytes₂) => (gap, len) :: deltas bytes₂
termination_by bytes.length
decreasing_by exact (getVarint_shortens _h₂).trans (getVarint_shortens _h₁)

/-- The spans that `(gap, len)` pairs stand for. -/
def spansFrom (prevEnd : ℕ) : List (ℕ × ℕ) → List (ℕ × ℕ)
  | [] => []
  | (gap, len) :: ds => (prevEnd + gap, len) :: spansFrom (prevEnd + gap + len) ds

variable {bytes : List UInt8} {ds spans : List (ℕ × ℕ)} {prevEnd : ℕ}

/-- One turn of the loop: a pair is read, checked, and its span is put before the rest. -/
theorem decodeFrom_eq_ok (h : decodeFrom prevEnd bytes = .ok spans) :
    bytes = [] ∧ spans = [] ∨
      ∃ gap len bytes₁ bytes₂ rest, getVarint bytes = .ok (gap, bytes₁) ∧
        getVarint bytes₁ = .ok (len, bytes₂) ∧ 0 < len ∧
        decodeFrom (prevEnd + gap + len) bytes₂ = .ok rest ∧
        spans = (prevEnd + gap, len) :: rest := by
  rw [decodeFrom] at h
  by_cases hnil : bytes = []
  · rw [if_pos hnil] at h
    exact Or.inl ⟨hnil, (Except.ok.inj h).symm⟩
  · rw [if_neg hnil] at h
    split at h
    · cases h
    · rename_i gap bytes₁ h₁
      split at h
      · cases h
      · rename_i len bytes₂ h₂
        split_ifs at h with hzero hstart hend
        split at h
        · cases h
        · rename_i rest hrest
          exact Or.inr ⟨gap, len, bytes₁, bytes₂, rest, h₁, h₂, Nat.pos_of_ne_zero hzero, hrest,
            (Except.ok.inj h).symm⟩

/-- The induction over the turns of `decode`. -/
theorem decodeFrom_induction {P : ℕ → List UInt8 → List (ℕ × ℕ) → Prop}
    (nil : ∀ prevEnd, P prevEnd [] [])
    (cons : ∀ prevEnd bytes gap bytes₁ len bytes₂ rest, getVarint bytes = .ok (gap, bytes₁) →
      getVarint bytes₁ = .ok (len, bytes₂) → 0 < len → P (prevEnd + gap + len) bytes₂ rest →
      P prevEnd bytes ((prevEnd + gap, len) :: rest))
    (h : decodeFrom prevEnd bytes = .ok spans) : P prevEnd bytes spans := by
  induction hn : bytes.length using Nat.strongRecOn generalizing prevEnd bytes spans with
  | ind n ih =>
    rcases decodeFrom_eq_ok h with ⟨rfl, rfl⟩ | ⟨gap, len, bytes₁, bytes₂, rest, h₁, h₂, hlen,
      hrest, rfl⟩
    · exact nil prevEnd
    · have hs₁ := getVarint_shortens h₁
      have hs₂ := getVarint_shortens h₂
      exact cons _ _ _ _ _ _ _ h₁ h₂ hlen (ih bytes₂.length (by omega) hrest rfl)

@[simp] theorem decodeFrom_nil (prevEnd : ℕ) : decodeFrom prevEnd [] = .ok [] := by
  rw [decodeFrom, if_pos rfl]

theorem decodeFrom_cons {gap len : ℕ} {bytes₁ bytes₂ : List UInt8} {rest : List (ℕ × ℕ)}
    (h₁ : getVarint bytes = .ok (gap, bytes₁)) (h₂ : getVarint bytes₁ = .ok (len, bytes₂))
    (hlen : 0 < len) (hmax : prevEnd + gap + len ≤ u64Max)
    (hrest : decodeFrom (prevEnd + gap + len) bytes₂ = .ok rest) :
    decodeFrom prevEnd bytes = .ok ((prevEnd + gap, len) :: rest) := by
  have hne : bytes ≠ [] := by
    rintro rfl
    cases h₁
  rw [decodeFrom, if_neg hne]
  split
  · rename_i e he
    rw [h₁] at he
    cases he
  · rename_i gap' bytes₁' h₁'
    rw [h₁] at h₁'
    cases h₁'
    split
    · rename_i e he
      rw [h₂] at he
      cases he
    · rename_i len' bytes₂' h₂'
      rw [h₂] at h₂'
      cases h₂'
      rw [if_neg (by omega), if_neg (by omega), if_neg (by omega), hrest]

theorem deltas_nil : deltas [] = [] := by
  rw [deltas]; rfl

theorem deltas_eq_cons {gap len : ℕ} {bytes₁ bytes₂ : List UInt8}
    (h₁ : getVarint bytes = .ok (gap, bytes₁)) (h₂ : getVarint bytes₁ = .ok (len, bytes₂)) :
    deltas bytes = (gap, len) :: deltas bytes₂ := by
  rw [deltas]
  split
  · rename_i e he
    rw [h₁] at he
    cases he
  · rename_i gap' bytes₁' h₁'
    rw [h₁] at h₁'
    cases h₁'
    split
    · rename_i e he
      rw [h₂] at he
      cases he
    · rename_i len' bytes₂' h₂'
      rw [h₂] at h₂'
      cases h₂'
      rfl

/-- What is accepted are the spans of the pairs, none of them empty. -/
theorem decodeFrom_spec (h : decodeFrom prevEnd bytes = .ok spans) :
    spans = spansFrom prevEnd (deltas bytes) ∧ Positive (deltas bytes) := by
  refine decodeFrom_induction (P := fun prevEnd bytes spans =>
    spans = spansFrom prevEnd (deltas bytes) ∧ Positive (deltas bytes)) ?_ ?_ h
  · intro prevEnd
    simp [deltas_nil, spansFrom, Positive]
  · rintro prevEnd bytes gap bytes₁ len bytes₂ rest h₁ h₂ hlen ⟨hspans, hpos⟩
    rw [deltas_eq_cons h₁ h₂]
    exact ⟨by rw [hspans]; rfl, List.forall_mem_cons.2 ⟨hlen, hpos⟩⟩

theorem decode_spec {r : RangeSet} (h : decode bytes = .ok r) :
    r.spans = spansFrom 0 (deltas bytes) ∧ Positive (deltas bytes) := by
  unfold decode at h
  cases hd : decodeFrom 0 bytes with
  | error e => rw [hd] at h; cases h
  | ok spans =>
    rw [hd] at h
    obtain rfl := Except.ok.inj h
    exact decodeFrom_spec hd

/-! ### Canonical or not -/

theorem positive_spansFrom : Positive (spansFrom prevEnd ds) ↔ Positive ds := by
  induction ds generalizing prevEnd with
  | nil => simp [spansFrom, Positive]
  | cons d ds ih =>
    simp only [Positive, spansFrom, List.forall_mem_cons] at ih ⊢
    rw [ih]

theorem le_of_mem_spansFrom {p : ℕ × ℕ} (hp : p ∈ spansFrom prevEnd ds) :
    prevEnd ≤ p.1 := by
  induction ds generalizing prevEnd with
  | nil => cases hp
  | cons d ds ih =>
    rcases List.mem_cons.1 hp with rfl | hp
    · exact Nat.le_add_right _ _
    · have := ih hp
      omega

theorem ordered_spansFrom : Ranges.Ordered (spansFrom prevEnd ds) := by
  induction ds generalizing prevEnd with
  | nil => exact ordered_nil
  | cons d ds ih => exact ordered_cons.2 ⟨fun q hq => le_of_mem_spansFrom hq, ih⟩

/-- Spans read off pairs are disjoint in any case; they keep apart when every later gap is
positive. -/
theorem separated_spansFrom (hpos : Positive ds) :
    Separated (spansFrom prevEnd ds) ↔ ∀ d ∈ ds.tail, d.1 ≠ 0 := by
  induction ds generalizing prevEnd with
  | nil => simp [spansFrom, Separated]
  | cons d ds ih =>
    have hpos' : Positive ds := fun d hd => hpos d (List.mem_cons_of_mem _ hd)
    have hsep : Separated (spansFrom prevEnd (d :: ds)) ↔
        (∀ q ∈ spansFrom (prevEnd + d.1 + d.2) ds, prevEnd + d.1 + d.2 < q.1) ∧
          Separated (spansFrom (prevEnd + d.1 + d.2) ds) := List.pairwise_cons
    rw [hsep, ih hpos', List.tail_cons]
    cases ds with
    | nil => simp [spansFrom]
    | cons d' ds' =>
      rw [List.tail_cons, List.forall_mem_cons]
      refine and_congr_left fun _ => ⟨fun h => ?_, fun h q hq => ?_⟩
      · have := h _ List.mem_cons_self
        simp only at this
        omega
      · have hd' := hpos' d' List.mem_cons_self
        rcases List.mem_cons.1 hq with rfl | hq
        · simp only; omega
        · have := le_of_mem_spansFrom hq
          omega

/-- For a canonical set the planner's gaps and the completion check agree. -/
theorem Canonical.containsAll_iff_gapsIn {r : RangeSet} (h : r.Canonical) (start stop : ℕ) :
    r.containsAll start stop = true ↔ r.gapsIn start stop = [] := by
  rw [← cover_eq_empty_iff (gapsIn_spec h.ordered start stop).2.1, cover_gapsIn h.ordered,
    Set.sdiff_eq_empty]
  exact ⟨Ico_subset_of_containsAll, containsAll_of_Ico_subset h⟩

/-- What `decode` accepts is canonical, so that `contains_all` and `gaps_in` agree on every
prefix, exactly when no pair after the first has gap 0. -/
theorem decode_canonical_iff {r : RangeSet} (h : decode bytes = .ok r) :
    (r.Canonical ∧ ∀ n, r.containsAll 0 n = true ↔ r.gapsIn 0 n = []) ↔
      ∀ d ∈ (deltas bytes).tail, d.1 ≠ 0 := by
  obtain ⟨hspans, hpos⟩ := decode_spec h
  rw [← separated_spansFrom hpos, ← hspans]
  constructor
  · exact fun hr => hr.1.1
  · intro hsep
    have hcan : r.Canonical := ⟨hsep, by rw [hspans]; exact positive_spansFrom.2 hpos⟩
    exact ⟨hcan, hcan.containsAll_iff_gapsIn 0⟩

theorem decode_canonical_apart :
    (RangeSet.mk [(0, 1), (4, 2)]).Canonical ∧
      ∀ n, containsAll ⟨[(0, 1), (4, 2)]⟩ 0 n = true ↔ gapsIn ⟨[(0, 1), (4, 2)]⟩ 0 n = [] := by
  have h₁ : getVarint [0, 1, 3, 2] = .ok (0, [1, 3, 2]) := rfl
  have h₂ : getVarint [1, 3, 2] = .ok (1, [3, 2]) := rfl
  have h₃ : getVarint [3, 2] = .ok (3, [2]) := rfl
  have h₄ : getVarint [2] = .ok (2, []) := rfl
  have hdecode : decode [0, 1, 3, 2] = .ok ⟨[(0, 1), (4, 2)]⟩ := by
    rw [decode, decodeFrom_cons h₁ h₂ (by decide) (by decide)
      (decodeFrom_cons h₃ h₄ (by decide) (by decide) (decodeFrom_nil _))]
    rfl
  have hdeltas : deltas [0, 1, 3, 2] = [(0, 1), (3, 2)] := by
    rw [deltas_eq_cons h₁ h₂, deltas_eq_cons h₃ h₄, deltas_nil]
  exact (decode_canonical_iff hdecode).2 (by rw [hdeltas]; decide)

/-- Two spans that touch: the bytes `[0, 2)` are there, and no span holds them all. -/
theorem decode_touching :
    ¬∀ (bytes : List UInt8) (r : RangeSet), decode bytes = .ok r →
      r.Canonical ∧ ∀ n, r.containsAll 0 n = true ↔ r.gapsIn 0 n = [] := by
  intro h
  have h₁ : getVarint [0, 1, 0, 1] = .ok (0, [1, 0, 1]) := rfl
  have h₂ : getVarint [1, 0, 1] = .ok (1, [0, 1]) := rfl
  have h₃ : getVarint [0, 1] = .ok (0, [1]) := rfl
  have h₄ : getVarint [1] = .ok (1, []) := rfl
  have hdecode : decode [0, 1, 0, 1] = .ok ⟨[(0, 1), (1, 1)]⟩ := by
    rw [decode, decodeFrom_cons h₁ h₂ (by decide) (by decide)
      (decodeFrom_cons h₃ h₄ (by decide) (by decide) (decodeFrom_nil _))]
    rfl
  have hgaps := ((h _ _ hdecode).2 2).2 (by decide)
  exact absurd hgaps (by decide)

/-- The two disagree on some prefix exactly when the first two pairs both have gap 0. -/
theorem decode_agree_iff {r : RangeSet} (h : decode bytes = .ok r) :
    (∀ n, r.containsAll 0 n = true ↔ r.gapsIn 0 n = []) ↔
      ¬∃ l₁ l₂ ds, deltas bytes = (0, l₁) :: (0, l₂) :: ds := by
  obtain ⟨hspans, hpos⟩ := decode_spec h
  have hord : r.Ordered := by
    rw [Ordered, hspans]
    exact ⟨ordered_spansFrom, positive_spansFrom.2 hpos⟩
  have hgaps : ∀ n, r.gapsIn 0 n = [] ↔ Set.Ico 0 n ⊆ r.covered := by
    intro n
    rw [← cover_eq_empty_iff (gapsIn_spec hord 0 n).2.1, cover_gapsIn hord, Set.sdiff_eq_empty]
  simp only [hgaps]
  constructor
  · rintro hagree ⟨l₁, l₂, ds, hds⟩
    -- the first two spans together are a prefix that no span holds
    rw [hds] at hspans hpos
    have hl₁ := hpos _ List.mem_cons_self
    have hl₂ := hpos _ (List.mem_cons_of_mem _ List.mem_cons_self)
    have hsub : Set.Ico 0 (l₁ + l₂) ⊆ r.covered := by
      rintro b ⟨-, hb⟩
      rw [covered, hspans]
      simp only [spansFrom, mem_cover_cons]
      omega
    have hall := (hagree _).2 hsub
    simp only [containsAll, hspans, spansFrom, List.any_cons, Bool.or_eq_true,
      decide_eq_true_eq, List.any_eq_true] at hall
    rcases hall with h₀ | ⟨-, h₁⟩ | ⟨h₁, -⟩ | ⟨p, hp, h₁, -⟩
    · omega
    · omega
    · omega
    · have := le_of_mem_spansFrom hp
      omega
  · intro hne n
    refine ⟨Ico_subset_of_containsAll, fun hsub => ?_⟩
    rcases Nat.eq_zero_or_pos n with rfl | hn
    · simp [containsAll]
    obtain ⟨p, hp, hp₁, -⟩ := hsub (show 0 ∈ Set.Ico 0 n from ⟨le_rfl, hn⟩)
    rw [hspans] at hp
    cases hds : deltas bytes with
    | nil => rw [hds] at hp; cases hp
    | cons d ds =>
      obtain ⟨g₁, l₁⟩ := d
      rw [hds] at hp hspans hpos
      have hl₁ : 0 < l₁ := hpos _ List.mem_cons_self
      -- the span that holds byte 0 is the first one
      obtain rfl : g₁ = 0 := by
        rcases List.mem_cons.1 hp with rfl | hp
        · simp only at hp₁; omega
        · have := le_of_mem_spansFrom hp
          omega
      have hall : n ≤ l₁ := by
        by_contra hlt
        obtain ⟨q, hq, hq₁, hq₂⟩ := hsub (show l₁ ∈ Set.Ico 0 n from ⟨Nat.zero_le _, by omega⟩)
        rw [hspans] at hq
        rcases List.mem_cons.1 hq with rfl | hq
        · simp only at hq₂; omega
        · cases ds with
          | nil => cases hq
          | cons d ds =>
            obtain ⟨g₂, l₂⟩ := d
            have hg₂ : g₂ ≠ 0 := by
              rintro rfl
              exact hne ⟨l₁, l₂, ds, hds⟩
            rcases List.mem_cons.1 hq with rfl | hq
            · simp only at hq₁; omega
            · have := le_of_mem_spansFrom hq
              omega
      simp only [containsAll, hspans, spansFrom, List.any_cons, Bool.or_eq_true,
        decide_eq_true_eq]
      exact Or.inr (Or.inl (by omega))

end RangeSet

end SwiftLoad
