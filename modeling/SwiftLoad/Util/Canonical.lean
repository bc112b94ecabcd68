import SwiftLoad.Util.Intervals

/-!
# `RangeSet` is a canonical form

Every operation of `util/intervals.rs` keeps the spans sorted, non-empty, disjoint and apart
(`RangeSet.Canonical`).  Such a list of spans is determined by the bytes it covers: its spans are
the maximal runs of the covered set (`mem_spans_iff`), so two canonical sets with the same bytes
are equal (`Canonical.ext`).

* `RangeSet.Op` : the mutating operations, `Op.apply` what they do to the spans and `Op.effect`
  what they are meant to do to the set of bytes.
* `canonical_of_ops` : after any sequence of them from `new`, the spans are canonical and cover
  what the sequence of effects leaves.
-/

namespace SwiftLoad

open Ranges

namespace RangeSet

variable {r r' : RangeSet} {a b : ℕ}

/-- The loop body of `remove`: what is left of one span, whole or its head and its tail. -/
def keep (start stop : ℕ) (p : ℕ × ℕ) : List (ℕ × ℕ) :=
  if p.1 + p.2 ≤ start ∨ stop ≤ p.1 then [p]
  else (if p.1 < start then [(p.1, start - p.1)] else []) ++
    if stop < p.1 + p.2 then [(stop, p.1 + p.2 - stop)] else []

/-- `RangeSet::remove`: take `[start, start + len)` out, splitting spans as needed. -/
def remove (r : RangeSet) (start len : ℕ) : RangeSet :=
  if len = 0 then r else ⟨r.spans.flatMap (keep start (start + len))⟩

/-- `RangeSet::from_pairs`. -/
def fromPairs (pairs : List (ℕ × ℕ)) : RangeSet := pairs.foldl (fun r p => r.insert p.1 p.2) new

/-- `[a, b)` is a maximal run of bytes of `S`. -/
def MaxRun (S : Set ℕ) (a b : ℕ) : Prop :=
  a < b ∧ Set.Ico a b ⊆ S ∧ b ∉ S ∧ ∀ c, c + 1 = a → c ∉ S

/-! ### Spans and maximal runs -/

theorem Canonical.end_notMem (h : r.Canonical) {p : ℕ × ℕ} (hp : p ∈ r.spans) :
    p.1 + p.2 ∉ r.covered := by
  rintro ⟨q, hq, h₁, h₂⟩
  obtain ⟨i, hi, rfl⟩ := List.getElem_of_mem hp
  obtain ⟨j, hj, rfl⟩ := List.getElem_of_mem hq
  have hsep := List.pairwise_iff_getElem.1 h.1
  rcases lt_trichotomy i j with hij | rfl | hij
  · have := hsep i j hi hj hij
    omega
  · omega
  · have := hsep j i hj hi hij
    omega

theorem Canonical.pred_notMem (h : r.Canonical) {p : ℕ × ℕ} (hp : p ∈ r.spans) {c : ℕ}
    (hc : c + 1 = p.1) : c ∉ r.covered := by
  rintro ⟨q, hq, h₁, h₂⟩
  -- the span that holds `c` reaches up to `p`
  have hend := h.end_notMem hq
  refine hend (mem_cover_of_mem hp ?_ ?_)
  · omega
  · obtain ⟨i, hi, rfl⟩ := List.getElem_of_mem hp
    obtain ⟨j, hj, rfl⟩ := List.getElem_of_mem hq
    have hpos := h.2 _ (List.getElem_mem hi)
    have hsep := List.pairwise_iff_getElem.1 h.1
    rcases lt_trichotomy i j with hij | rfl | hij
    · have := hsep i j hi hj hij
      omega
    · omega
    · have := hsep j i hj hi hij
      omega

/-- The spans of a canonical set are the maximal runs of its bytes. -/
theorem maxRun_iff (h : r.Canonical) : MaxRun r.covered a b ↔ a < b ∧ (a, b - a) ∈ r.spans := by
  constructor
  · rintro ⟨hab, hsub, hend, hpred⟩
    refine ⟨hab, ?_⟩
    have hall := containsAll_of_Ico_subset h hsub
    simp only [containsAll, Bool.or_eq_true, decide_eq_true_eq, List.any_eq_true] at hall
    obtain ⟨p, hp, h₁, h₂⟩ := hall.resolve_left (by omega)
    have hfst : p.1 = a := by
      by_contra hne
      exact hpred (a - 1) (by omega) (mem_cover_of_mem hp (by omega) (by omega))
    have hsnd : p.1 + p.2 = b := by
      by_contra hne
      exact hend (mem_cover_of_mem hp (by omega) (by omega))
    have hpair : (a, b - a) = p := Prod.ext hfst.symm (by simp only; omega)
    exact hpair ▸ hp
  · rintro ⟨hab, hp⟩
    refine ⟨hab, ?_, ?_, ?_⟩
    · rintro x ⟨h₁, h₂⟩
      exact mem_cover_of_mem hp h₁ (by simp only; omega)
    · have hend := h.end_notMem hp
      simpa [Nat.add_sub_cancel' hab.le] using hend
    · exact fun c hc => h.pred_notMem hp hc

theorem mem_spans_iff (h : r.Canonical) {p : ℕ × ℕ} :
    p ∈ r.spans ↔ 0 < p.2 ∧ MaxRun r.covered p.1 (p.1 + p.2) := by
  rw [maxRun_iff h, Nat.add_sub_cancel_left]
  constructor
  · intro hp
    have := h.2 p hp
    exact ⟨this, by omega, hp⟩
  · exact fun hp => hp.2.2

theorem Canonical.nodup (h : r.Canonical) : r.spans.Nodup := by
  refine List.Pairwise.imp_of_mem (fun {p q} hp _ hpq => ?_) h.1
  rintro rfl
  omega

/-- A canonical set is determined by its bytes. -/
theorem Canonical.ext (h : r.Canonical) (h' : r'.Canonical) (hcov : r.covered = r'.covered) :
    r = r' := by
  have hmem : ∀ p, p ∈ r.spans ↔ p ∈ r'.spans := by
    intro p
    rw [mem_spans_iff h, mem_spans_iff h', hcov]
  have hperm : r.spans.Perm r'.spans :=
    (List.perm_ext_iff_of_nodup h.nodup h'.nodup).2 hmem
  have hanti : ∀ p q : ℕ × ℕ, p ∈ r.spans → q ∈ r'.spans →
      p.1 + p.2 < q.1 → q.1 + q.2 < p.1 → p = q := by
    intro p q _ _ hpq hqp
    omega
  have hspans : r.spans = r'.spans := List.Perm.eq_of_pairwise hanti h.1 h'.1 hperm
  cases r; cases r'; exact congrArg RangeSet.mk hspans

/-! ### Removal -/

theorem mem_keep {start stop : ℕ} {p q : ℕ × ℕ} (h : q ∈ keep start stop p) (hp : 0 < p.2) :
    0 < q.2 ∧ p.1 ≤ q.1 ∧ q.1 + q.2 ≤ p.1 + p.2 := by
  unfold keep at h
  split_ifs at h
  all_goals simp only [List.mem_append, List.mem_singleton, List.append_nil, List.nil_append,
    List.not_mem_nil] at h
  · subst h; omega
  · rcases h with rfl | rfl <;> simp only <;> omega
  · subst h; simp only; omega
  · subst h; simp only; omega

theorem separated_keep {start stop : ℕ} (h : start < stop) (p : ℕ × ℕ) :
    Separated (keep start stop p) := by
  unfold keep
  split_ifs <;> simp [Separated]
  omega

theorem mem_cover_keep {start stop : ℕ} {p : ℕ × ℕ} :
    b ∈ cover (keep start stop p) ↔ (p.1 ≤ b ∧ b < p.1 + p.2) ∧ ¬(start ≤ b ∧ b < stop) := by
  unfold keep
  split_ifs <;> simp only [mem_cover_append, mem_cover_cons, cover_nil, Set.mem_empty_iff_false,
    or_false, List.nil_append, List.append_nil, false_iff] <;> omega

theorem covered_remove (r : RangeSet) (start len : ℕ) :
    (r.remove start len).covered = r.covered \ Set.Ico start (start + len) := by
  unfold remove
  split_ifs with h0
  · simp [h0]
  · ext b
    have hflat : b ∈ cover (r.spans.flatMap (keep start (start + len))) ↔
        ∃ p ∈ r.spans, b ∈ cover (keep start (start + len) p) := by
      simp only [mem_cover, List.mem_flatMap]
      constructor
      · rintro ⟨q, ⟨p, hp, hq⟩, hb⟩
        exact ⟨p, hp, q, hq, hb⟩
      · rintro ⟨p, hp, q, hq, hb⟩
        exact ⟨q, ⟨p, hp, hq⟩, hb⟩
    rw [covered, hflat]
    simp only [mem_cover_keep]
    simp only [Set.mem_sdiff, Set.mem_Ico, covered, mem_cover]
    constructor
    · rintro ⟨p, hp, hb, hn⟩
      exact ⟨⟨p, hp, hb⟩, hn⟩
    · rintro ⟨⟨p, hp, hb⟩, hn⟩
      exact ⟨p, hp, hb, hn⟩

theorem canonical_remove (h : r.Canonical) (start len : ℕ) : (r.remove start len).Canonical := by
  unfold remove
  split_ifs with h0
  · exact h
  · constructor
    · refine List.pairwise_flatMap.2 ⟨fun p _ => separated_keep (by omega) p, ?_⟩
      refine List.Pairwise.imp_of_mem (fun {p q} hp hq hpq => ?_) h.1
      intro p' hp' q' hq'
      have h₁ := mem_keep hp' (h.2 p hp)
      have h₂ := mem_keep hq' (h.2 q hq)
      omega
    · intro q hq
      obtain ⟨p, hp, hq⟩ := List.mem_flatMap.1 hq
      exact (mem_keep hq (h.2 p hp)).1

/-! ### Rewinding -/

/-- Each maximal run loses its last `margin` bytes. -/
theorem covered_rewindTails (h : r.Canonical) (margin : ℕ) :
    (r.rewindTails margin).covered =
      {x | ∃ a b, MaxRun r.covered a b ∧ a ≤ x ∧ x < b - margin} := by
  have hspan : ∀ x, x ∈ (r.rewindTails margin).covered ↔
      ∃ p ∈ r.spans, p.1 ≤ x ∧ x < p.1 + p.2 - margin := by
    intro x
    unfold rewindTails
    split_ifs with h0
    · simp [h0, covered, mem_cover]
    · simp only [covered, mem_cover, List.mem_filterMap]
      constructor
      · rintro ⟨q, ⟨p, hp, hq⟩, h₁, h₂⟩
        split_ifs at hq
        obtain rfl := Option.some.inj hq
        exact ⟨p, hp, h₁, by simp only at h₂; omega⟩
      · rintro ⟨p, hp, h₁, h₂⟩
        exact ⟨(p.1, p.2 - margin), ⟨p, hp, if_neg (by omega)⟩, h₁, by simp only; omega⟩
  ext x
  rw [hspan, Set.mem_ofPred_eq]
  constructor
  · rintro ⟨p, hp, hx⟩
    exact ⟨p.1, p.1 + p.2, ((mem_spans_iff h).1 hp).2, hx⟩
  · rintro ⟨a, b, hrun, h₁, h₂⟩
    obtain ⟨hab, hp⟩ := (maxRun_iff h).1 hrun
    exact ⟨(a, b - a), hp, h₁, by simp only; omega⟩

/-! ### Sequences of operations -/

/-- The mutating operations of a `RangeSet`. -/
inductive Op where
  | insert (start len : ℕ)
  | remove (start len : ℕ)
  | truncateTo (limit : ℕ)
  | rewindTails (margin : ℕ)
deriving DecidableEq, Repr

namespace Op

/-- The end of the operation's range is a `u64`. -/
def InRange : Op → Prop
  | insert start len => start + len ≤ u64Max
  | remove start len => start + len ≤ u64Max
  | truncateTo _ => True
  | rewindTails _ => True

instance : DecidablePred InRange
  | insert start len => inferInstanceAs (Decidable (start + len ≤ u64Max))
  | remove start len => inferInstanceAs (Decidable (start + len ≤ u64Max))
  | truncateTo _ => inferInstanceAs (Decidable True)
  | rewindTails _ => inferInstanceAs (Decidable True)

/-- What an operation does to the spans. -/
def apply (r : RangeSet) : Op → RangeSet
  | insert start len => r.insert start len
  | remove start len => r.remove start len
  | truncateTo limit => r.truncateTo limit
  | rewindTails margin => r.rewindTails margin

/-- What an operation is meant to do to the bytes. -/
def effect (S : Set ℕ) : Op → Set ℕ
  | insert start len => S ∪ Set.Ico start (start + len)
  | remove start len => S \ Set.Ico start (start + len)
  | truncateTo limit => S ∩ Set.Iio limit
  | rewindTails margin => {x | ∃ a b, MaxRun S a b ∧ a ≤ x ∧ x < b - margin}

end Op

theorem canonical_apply (h : r.Canonical) {op : Op} (hop : op.InRange) :
    (op.apply r).Canonical := by
  cases op with
  | insert start len => exact canonical_insert h hop
  | remove start len => exact canonical_remove h start len
  | truncateTo limit => exact canonical_truncateTo h limit
  | rewindTails margin => exact canonical_rewindTails h margin

theorem covered_apply (h : r.Canonical) {op : Op} (hop : op.InRange) :
    (op.apply r).covered = op.effect r.covered := by
  cases op with
  | insert start len => exact covered_insert h.ordered hop
  | remove start len => exact covered_remove r start len
  | truncateTo limit => exact covered_truncateTo r limit
  | rewindTails margin => exact covered_rewindTails h margin

/-- The set after a sequence of operations on an empty one. -/
def ofOps (ops : List Op) : RangeSet := ops.foldl Op.apply new

theorem foldl_apply_spec {ops : List Op} (h : r.Canonical) (hops : ∀ op ∈ ops, op.InRange) :
    (ops.foldl Op.apply r).Canonical ∧
      (ops.foldl Op.apply r).covered = ops.foldl Op.effect r.covered := by
  induction ops generalizing r with
  | nil => exact ⟨h, rfl⟩
  | cons op ops ih =>
    have hop := hops op List.mem_cons_self
    have hrest := ih (canonical_apply h hop) fun op hmem => hops op (List.mem_cons_of_mem _ hmem)
    rwa [covered_apply h hop] at hrest

theorem fromPairs_eq_ofOps (pairs : List (ℕ × ℕ)) :
    fromPairs pairs = ofOps (pairs.map fun p => Op.insert p.1 p.2) := by
  unfold fromPairs ofOps
  rw [List.foldl_map]
  rfl

theorem foldl_effect_insert (pairs : List (ℕ × ℕ)) (S : Set ℕ) :
    (pairs.map fun p => Op.insert p.1 p.2).foldl Op.effect S = S ∪ cover pairs := by
  induction pairs generalizing S with
  | nil => simp
  | cons p pairs ih =>
    rw [List.map_cons, List.foldl_cons, ih, cover_cons, ← Set.union_assoc]
    rfl

theorem fromPairs_spec {pairs : List (ℕ × ℕ)} (h : ∀ p ∈ pairs, p.1 + p.2 ≤ u64Max) :
    (fromPairs pairs).Canonical ∧ (fromPairs pairs).covered = cover pairs := by
  have hops : ∀ op ∈ pairs.map (fun p => Op.insert p.1 p.2), op.InRange := by
    intro op hop
    obtain ⟨p, hp, rfl⟩ := List.mem_map.1 hop
    exact h p hp
  obtain ⟨hcan, hcov⟩ := foldl_apply_spec canonical_new hops
  rw [fromPairs_eq_ofOps]
  refine ⟨hcan, hcov.trans ?_⟩
  rw [covered_new, foldl_effect_insert, Set.empty_union]

/-- A `RangeSet` is a canonical representation of a finite set of bytes: any sequence of
operations leaves sorted, non-empty, disjoint spans that do not touch, which cover what the
sequence of effects leaves; two such sets are equal when they cover the same bytes; and
`from_pairs` does not depend on the order of its pairs or on how often each occurs. -/
theorem canonical_of_ops {ops : List Op} (h : ∀ op ∈ ops, op.InRange) :
    (ofOps ops).Canonical ∧ (ofOps ops).covered = ops.foldl Op.effect ∅ ∧
      (∀ ops' : List Op, (∀ op ∈ ops', op.InRange) →
        (ofOps ops = ofOps ops' ↔ (ofOps ops).covered = (ofOps ops').covered)) ∧
      ∀ pairs pairs' : List (ℕ × ℕ), (∀ p ∈ pairs, p.1 + p.2 ≤ u64Max) →
        (∀ p, p ∈ pairs ↔ p ∈ pairs') → fromPairs pairs = fromPairs pairs' := by
  obtain ⟨hcan, hcov⟩ := foldl_apply_spec canonical_new h
  rw [covered_new] at hcov
  refine ⟨hcan, hcov, ?_, ?_⟩
  · intro ops' h'
    have hcan' := (foldl_apply_spec canonical_new h').1
    exact ⟨fun heq => heq ▸ rfl, hcan.ext hcan'⟩
  · intro pairs pairs' hmax hmem
    have hspec := fromPairs_spec hmax
    have hspec' := @fromPairs_spec pairs' fun p hp => hmax p ((hmem p).2 hp)
    refine hspec.1.ext hspec'.1 ?_
    rw [hspec.2, hspec'.2]
    exact (cover_mono fun p => (hmem p).1).antisymm (cover_mono fun p => (hmem p).2)

theorem canonical_of_ops_sample :
    (ofOps [.insert 0 100, .insert 100 50, .remove 40 20, .rewindTails 40]).Canonical ∧
      (ofOps [.insert 0 100, .insert 100 50, .remove 40 20, .rewindTails 40]).spans =
        [(60, 50)] :=
  ⟨(canonical_of_ops (by decide)).1, by decide⟩

end RangeSet

end SwiftLoad
