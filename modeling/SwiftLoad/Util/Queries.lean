import SwiftLoad.Util.Canonical

/-!
# The queries of a `RangeSet`

The planner, the completion check and the window chooser ask the set of what is on disk; each query
is a loop with a cursor over the spans.  For a canonical set every answer is the one that the
covered bytes give.

* `firstGapFrom_spec` : what the loop of `first_gap_at_or_after` finds.
* `canonical_gapsIn` : the gaps in a window are a canonical set themselves, so that they are its
  maximal uncovered runs (`mem_gapsIn_iff`).
* `queries_exact` : **every query agrees with the covered bytes.**
-/

namespace SwiftLoad

open Ranges

namespace RangeSet

/-- The loop of `first_gap_at_or_after` with its cursor. -/
def firstGapFrom : ℕ → List (ℕ × ℕ) → ℕ × Option ℕ
  | cursor, [] => (cursor, none)
  | cursor, (s, l) :: rest =>
    if s + l ≤ cursor then firstGapFrom cursor rest
    else if s ≤ cursor then firstGapFrom (s + l) rest
    else (cursor, some s)

/-- `RangeSet::first_gap_at_or_after`: the first missing byte at or after `pos`, and where the gap
ends, unless it is open-ended. -/
def firstGapAtOrAfter (r : RangeSet) (pos : ℕ) : Option (ℕ × Option ℕ) :=
  some (firstGapFrom pos r.spans)

variable {r : RangeSet} {l : List (ℕ × ℕ)} {a b c g : ℕ}

/-! ### The first gap -/

/-- The gap that the loop finds: its first byte is the least that is missing, and it ends where the
next range starts. -/
theorem firstGapFrom_spec (h : Ranges.Ordered l) (hpos : Positive l) (c : ℕ) :
    IsLeast {x | c ≤ x ∧ x ∉ cover l} (firstGapFrom c l).1 ∧
      ∀ n, (firstGapFrom c l).2 = some n ↔
        IsLeast {s | (firstGapFrom c l).1 < s ∧ ∃ k, (s, k) ∈ l} n := by
  induction l generalizing c with
  | nil =>
    refine ⟨⟨⟨le_rfl, by simp⟩, fun x hx => hx.1⟩, fun n => ?_⟩
    refine iff_of_false (by simp [firstGapFrom]) fun hn => ?_
    obtain ⟨-, k, hk⟩ := hn.1
    cases hk
  | cons p l ih =>
    obtain ⟨s, n⟩ := p
    obtain ⟨hp, hl⟩ := ordered_cons.1 h
    obtain ⟨hn, hposl⟩ : 0 < n ∧ Positive l := List.forall_mem_cons.1 hpos
    -- the cursor moves to `c'`, past all that this range covers
    have hstep : ∀ c', c ≤ c' → s + n ≤ c' → (∀ x, c ≤ x → x < c' → s ≤ x ∧ x < s + n) →
        IsLeast {x | c ≤ x ∧ x ∉ cover ((s, n) :: l)} (firstGapFrom c' l).1 ∧
          ∀ m, (firstGapFrom c' l).2 = some m ↔
            IsLeast {t | (firstGapFrom c' l).1 < t ∧ ∃ k, (t, k) ∈ (s, n) :: l} m := by
      intro c' hc hend hpass
      obtain ⟨⟨⟨hge, hmiss⟩, hleast⟩, hnext⟩ := ih hl hposl c'
      refine ⟨⟨⟨hc.trans hge, ?_⟩, ?_⟩, fun m => ?_⟩
      · rw [mem_cover_cons, not_or]
        exact ⟨by simp only; omega, hmiss⟩
      · rintro x ⟨hx, hxmiss⟩
        rw [mem_cover_cons, not_or] at hxmiss
        refine hleast ⟨?_, hxmiss.2⟩
        by_contra hlt
        exact hxmiss.1 (hpass x hx (by omega))
      · have hset : {t | (firstGapFrom c' l).1 < t ∧ ∃ k, (t, k) ∈ (s, n) :: l} =
            {t | (firstGapFrom c' l).1 < t ∧ ∃ k, (t, k) ∈ l} := by
          ext t
          simp only [Set.mem_ofPred_eq, List.mem_cons, Prod.mk.injEq]
          refine and_congr_right fun ht => exists_congr fun k => or_iff_right ?_
          omega
        rw [hset]
        exact hnext m
    simp only [firstGapFrom]
    split_ifs with h₁ h₂
    · exact hstep c le_rfl h₁ fun x hx hlt => by omega
    · exact hstep (s + n) (by omega) le_rfl fun x hx hlt => by omega
    · -- the range lies ahead, and the others after it
      refine ⟨⟨⟨le_rfl, ?_⟩, fun x hx => hx.1⟩, fun m => ?_⟩
      · rintro ⟨q, hq, hq₁, hq₂⟩
        rcases List.mem_cons.1 hq with rfl | hq
        · simp only at hq₁; omega
        · have := hp q hq
          simp only at this; omega
      · have hleast : IsLeast {t | c < t ∧ ∃ k, (t, k) ∈ (s, n) :: l} s := by
          refine ⟨⟨by omega, n, List.mem_cons_self⟩, ?_⟩
          rintro t ⟨-, k, hk⟩
          rcases List.mem_cons.1 hk with hk | hk
          · exact (Prod.mk.inj hk).1.ge
          · have := hp _ hk
            simp only at this; omega
        rw [Option.some.injEq]
        exact ⟨fun hm => hm ▸ hleast, fun hm => hleast.unique hm⟩

/-! ### The gaps in a window -/

theorem separated_gapsFrom (h : Ranges.Ordered l) (hpos : Positive l) (stop c : ℕ) :
    Separated (gapsFrom stop c l) := by
  induction l generalizing c with
  | nil =>
    simp only [gapsFrom]
    split_ifs
    · exact List.pairwise_singleton _ _
    · exact List.Pairwise.nil
  | cons p l ih =>
    obtain ⟨s, n⟩ := p
    obtain ⟨hp, hl⟩ := ordered_cons.1 h
    obtain ⟨hn, hposl⟩ : 0 < n ∧ Positive l := List.forall_mem_cons.1 hpos
    simp only [gapsFrom]
    split_ifs with h₁ h₂ h₃ h₄ h₅ h₅
    · exact ih hl hposl c
    · exact List.pairwise_singleton _ _
    · exact List.Pairwise.nil
    · exact List.pairwise_singleton _ _
    · exact List.Pairwise.nil
    · refine List.pairwise_cons.2 ⟨fun q hq => ?_, ih hl hposl _⟩
      have := (gapsFrom_spec hl).2.2 q hq
      simp only; omega
    · exact ih hl hposl _

theorem canonical_gapsIn (h : r.Canonical) (a b : ℕ) :
    (RangeSet.mk (r.gapsIn a b)).Canonical := by
  refine ⟨?_, (gapsIn_spec h.ordered a b).2.1⟩
  unfold gapsIn
  split_ifs
  · exact List.Pairwise.nil
  · exact separated_gapsFrom h.ordered.1 h.2 b a

/-- The gaps in a window are its maximal uncovered runs. -/
theorem mem_gapsIn_iff (h : r.Canonical) {p : ℕ × ℕ} :
    p ∈ r.gapsIn a b ↔ 0 < p.2 ∧ MaxRun (Set.Ico a b \ r.covered) p.1 (p.1 + p.2) := by
  rw [← cover_gapsIn h.ordered a b]
  exact mem_spans_iff (canonical_gapsIn h a b)

/-! ### All queries -/

theorem endPos_eq (h : r.Ordered) {m : ℕ} (hm : IsGreatest r.covered m) : r.endPos = m + 1 := by
  have hlt := lt_endPos h hm.1
  have hle := hm.2 (pred_endPos_mem h (by omega))
  omega

theorem endPos_le {max : ℕ} (hmax : ∀ p ∈ r.spans, p.1 + p.2 ≤ max) : r.endPos ≤ max := by
  unfold endPos
  cases hlast : r.spans.getLast? with
  | none => exact Nat.zero_le _
  | some p => exact hmax p (List.mem_of_getLast? hlast)

/-- There are no more bytes than places for them, so that the sum of the lengths stays in range. -/
theorem total_le_endPos (h : r.Ordered) : r.total ≤ r.endPos :=
  size_le h.1.apart fun _ => lt_endPos h

/-- **The queries agree with the covered bytes.**  `contains_all` tests whether the window is
covered, `gaps_in` lists its maximal uncovered runs in ascending order, `first_gap_at_or_after`
finds the least missing byte and the start of the next span, `total` counts the bytes, and `end` is
one past the largest. -/
theorem queries_exact (h : r.Canonical) (hmax : ∀ p ∈ r.spans, p.1 + p.2 ≤ u64Max) (a b : ℕ) :
    (r.containsAll a b = true ↔ Set.Ico a b ⊆ r.covered) ∧
      ((r.gapsIn a b).Pairwise (fun p q => p.1 < q.1) ∧ ∀ p, p ∈ r.gapsIn a b ↔
        0 < p.2 ∧ MaxRun (Set.Ico a b \ r.covered) p.1 (p.1 + p.2)) ∧
      (∃ g next, r.firstGapAtOrAfter a = some (g, next) ∧ IsLeast {x | a ≤ x ∧ x ∉ r.covered} g ∧
        ∀ n, next = some n ↔ IsLeast {s | g < s ∧ ∃ l, (s, l) ∈ r.spans} n) ∧
      (r.total = r.covered.ncard ∧ r.total ≤ u64Max) ∧
      ((r.covered = ∅ → r.endPos = 0) ∧ ∀ m, IsGreatest r.covered m → r.endPos = m + 1) := by
  refine ⟨⟨Ico_subset_of_containsAll, containsAll_of_Ico_subset h⟩,
    ⟨?_, fun p => mem_gapsIn_iff h⟩, ⟨_, _, rfl, firstGapFrom_spec h.ordered.1 h.2 a⟩,
    ⟨(ncard_covered h.ordered).symm, (total_le_endPos h.ordered).trans (endPos_le hmax)⟩,
    fun hempty => ?_, fun m => endPos_eq h.ordered⟩
  · refine List.Pairwise.imp_of_mem (fun {p q} hp _ hpq => ?_) (canonical_gapsIn h a b).1
    have := (canonical_gapsIn h a b).2 p hp
    omega
  · by_contra hne
    have := pred_endPos_mem h.ordered (Nat.pos_of_ne_zero hne)
    rw [hempty] at this
    exact this

/-- The file has 200 bytes, and its tail is missing. -/
theorem queries_exact_two :
    (RangeSet.mk [(10, 20), (50, 100)]).firstGapAtOrAfter 15 = some (30, some 50) ∧
      (RangeSet.mk [(10, 20), (50, 100)]).gapsIn 15 200 = [(30, 20), (150, 50)] ∧
      MaxRun (Set.Ico 15 200 \ (RangeSet.mk [(10, 20), (50, 100)]).covered) 30 50 := by
  refine ⟨by decide, by decide, ?_⟩
  have h := queries_exact (r := ⟨[(10, 20), (50, 100)]⟩) (by decide) (by decide) 15 200
  exact ((h.2.1.2 (30, 20)).1 (by decide)).2

end RangeSet

end SwiftLoad
