import Mathlib.Data.List.TakeWhile
import SwiftLoad.Util.Canonical
import SwiftLoad.Util.Queries

/-!
# `RangeSet` and the end of `u64`

`insert` cuts the end of its range at `u64::MAX` (`saturating_add`), and the branch that merges
stores a span up to the cut.  The branch that has nothing to merge with stores the range as it was
given.  A range that runs past the end and that no stored span reaches becomes a span whose end
does not fit `u64`, and every later operation that adds up its start and its length overflows.

* `RangeSet.InU64` : the sums that the operations form fit.
* `RangeSet.inU64_insert` : an insertion that fits (`RangeSet.Fits`) keeps it so.
* `RangeSet.not_inU64_insert` : one that does not fit breaks it.
* `RangeSet.inserts_inU64_iff` : every state of a sequence of insertions is in range if and only if
  every insertion fits the set it finds.
-/

namespace SwiftLoad

open Ranges

namespace RangeSet

variable {r : RangeSet} {start len : ℕ}

/-- No operation computes a sum that overflows.  All of them, `insert`, `end`, `contains_all`,
`first_gap_at_or_after`, `gaps_in`, `truncate_to` and `encode`, add the length of a span to its
start, and `total` adds up the lengths. -/
structure InU64 (r : RangeSet) : Prop where
  ends : ∀ p ∈ r.spans, p.1 + p.2 ≤ u64Max
  total : r.total ≤ u64Max

theorem InU64.of_ends (h : r.Ordered) (hends : ∀ p ∈ r.spans, p.1 + p.2 ≤ u64Max) : r.InU64 :=
  ⟨hends, (total_le_endPos h).trans (endPos_le hends)⟩

theorem inU64_new : new.InU64 := .of_ends ordered_new (by simp [new])

/-! ### One insertion -/

theorem covered_lt (hends : ∀ p ∈ r.spans, p.1 + p.2 ≤ u64Max) {b : ℕ} (hb : b ∈ r.covered) :
    b < u64Max := by
  obtain ⟨p, hp, -, hlt⟩ := hb
  exact hlt.trans_le (hends p hp)

theorem InU64.of_covered (h : r.Ordered) (hcov : ∀ b ∈ r.covered, b < u64Max) : r.InU64 := by
  refine .of_ends h fun p hp => ?_
  have hpos := h.2 p hp
  have := hcov (p.1 + p.2 - 1) (mem_cover_of_mem hp (by omega) (by omega))
  omega

/-- An insertion that fits keeps the set in range, whether it saturates or not. -/
theorem inU64_insert (h : r.Ordered) (hr : r.InU64) (hstart : start ≤ u64Max)
    (hfits : r.Fits start len) : (r.insert start len).Ordered ∧ (r.insert start len).InU64 := by
  obtain ⟨hord, hpos, hcov⟩ := insert_fits_spec zero_le_one h.1 h.2 hstart hfits
  refine ⟨⟨hord, hpos⟩, .of_covered ⟨hord, hpos⟩ fun b hb => ?_⟩
  rw [hcov] at hb
  rcases hb with hb | ⟨-, hlt⟩
  · exact covered_lt hr.ends hb
  · exact hlt.trans_le (min_le_right _ _)

/-- An insertion that does not fit stores its range as it is. -/
theorem mem_insert_of_not_fits (hr : r.InU64) (hfits : ¬ r.Fits start len) :
    (start, len) ∈ (r.insert start len).spans := by
  unfold Fits at hfits
  push Not at hfits
  obtain ⟨-, hlen, hleft⟩ := hfits
  -- every span ends before the range starts, so `lo` is past the last one
  have hall : ∀ p ∈ r.spans, p.1 + p.2 < start := by
    intro p hp
    have hend := hr.ends p hp
    by_contra hge
    exact absurd (hleft p hp (by omega)) (by omega)
  have hlo : partitionPoint (fun p => decide (p.1 + p.2 < start)) r.spans = r.spans.length := by
    rw [partitionPoint, List.takeWhile_eq_self_iff.2 (by simpa using hall)]
  have hhi := partitionPoint_le_length (fun p => decide (p.1 ≤ satAdd start len)) r.spans
  simp only [insert, if_neg hlen]
  rw [if_pos (by rw [hlo]; exact hhi)]
  simp

theorem not_inU64_insert (hr : r.InU64) (hfits : ¬ r.Fits start len) :
    ¬ (r.insert start len).InU64 := by
  intro h
  exact hfits (Or.inl (h.ends _ (mem_insert_of_not_fits hr hfits)))

/-! ### Sequences of insertions -/

variable {calls : List (ℕ × ℕ)}

theorem fromPairs_take_succ {n : ℕ} (hn : n < calls.length) :
    fromPairs (calls.take (n + 1)) =
      (fromPairs (calls.take n)).insert (calls[n]).1 (calls[n]).2 := by
  rw [fromPairs, List.take_succ_eq_append_getElem hn, List.foldl_concat]
  rfl

/-- Insertions that all fit keep every state sorted and in range. -/
theorem fromPairs_take_spec (hargs : ∀ c ∈ calls, c.1 ≤ u64Max)
    (hfits : ∀ n (hn : n < calls.length),
      (fromPairs (calls.take n)).Fits (calls[n]).1 (calls[n]).2)
    {n : ℕ} (hn : n ≤ calls.length) :
    (fromPairs (calls.take n)).Ordered ∧ (fromPairs (calls.take n)).InU64 := by
  induction n with
  | zero => exact ⟨ordered_new, inU64_new⟩
  | succ n ih =>
    obtain ⟨hord, hin⟩ := ih (by omega)
    rw [fromPairs_take_succ hn]
    exact inU64_insert hord hin (hargs _ (List.getElem_mem hn)) (hfits n hn)

/-- **Range-set arithmetic and `u64`.**  In a sequence of insertions with arbitrary arguments,
every set that is reached is in range exactly when every call fits the set it finds: its range fits
`u64`, or is empty, or some stored span ends at or after its start, so that the cut range is
merged. -/
theorem inserts_inU64_iff (calls : List (ℕ × ℕ))
    (hargs : ∀ c ∈ calls, c.1 ≤ u64Max ∧ c.2 ≤ u64Max) :
    (∀ n ≤ calls.length, (fromPairs (calls.take n)).InU64) ↔
      ∀ n (hn : n < calls.length),
        (fromPairs (calls.take n)).Fits (calls[n]).1 (calls[n]).2 := by
  constructor
  · intro h n hn
    by_contra hfits
    refine not_inU64_insert (h n hn.le) hfits ?_
    rw [← fromPairs_take_succ hn]
    exact h (n + 1) hn
  · exact fun hfits n hn => (fromPairs_take_spec (fun c hc => (hargs c hc).1) hfits hn).2

/-- The second range runs past the end and is merged with the first. -/
theorem inserts_inU64_merged : (fromPairs [(u64Max - 4, 4), (u64Max - 2, 10)]).InU64 := by
  refine (inserts_inU64_iff [(u64Max - 4, 4), (u64Max - 2, 10)] (by decide)).2 (fun n hn => ?_) 2
    le_rfl
  have hreach : ∃ p ∈ (fromPairs [(u64Max - 4, 4)]).spans,
      u64Max - 2 ≤ p.1 + p.2 ∧ p.1 ≤ u64Max := by decide
  match n, hn with
  | 0, _ => exact Or.inl (show u64Max - 4 + 4 ≤ u64Max by decide)
  | 1, _ => exact Or.inr (Or.inr hreach)

/-- A range of five bytes at the last address but one, inserted into the empty set. -/
theorem insert_overflows :
    ¬ ∀ calls : List (ℕ × ℕ), (∀ c ∈ calls, c.1 ≤ u64Max ∧ c.2 ≤ u64Max) →
      ∀ n ≤ calls.length, (fromPairs (calls.take n)).InU64 := by
  intro h
  have hspan := (h [(u64Max - 1, 5)] (by decide) 1 le_rfl).ends (u64Max - 1, 5) (by decide)
  exact absurd hspan (by decide)

end RangeSet

end SwiftLoad
