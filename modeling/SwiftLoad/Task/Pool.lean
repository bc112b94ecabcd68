import SwiftLoad.Task.Accounting

/-!
# Returning ranges to the pool

A range comes back to the free list through `Plan::release` or `Plan::return_range`.  It may overlap
what is there, so the list is sorted by start and `merge_free` joins what overlaps or touches.

The source adds starts and lengths in `u64` and sorts with `sort_unstable_by_key`, which leaves the
order of equal starts open.

* `checkedMergeFree` : `merge_free` with additions that may overflow.
* `checkedMergeFree_eq` : they do not, when every range ends within `u64`.
* `mergeFree_perm` : the order of equal starts does not matter.
* `Plan.Valid.returnRange_spec` : a range that no claim holds can be returned to a valid plan.
* `mergeFree_normalizes` : **the merged list is sorted, disjoint and non-adjacent, it covers the
  same bytes, and `unclaimed` counts each of them once.**
-/

namespace SwiftLoad

open Ranges

/-! ### Additions that may overflow -/

/-- `a + b`, if it fits `u64`. -/
def checkedAdd (a b : ℕ) : Option ℕ := if a + b ≤ u64Max then some (a + b) else none

/-- The loop of `merge_free`, with the last range pushed so far. -/
def checkedMergeFrom : ℕ × ℕ → List (ℕ × ℕ) → Option (List (ℕ × ℕ))
  | last, [] => some [last]
  | (ps, pl), (s, l) :: rest =>
    (checkedAdd ps pl).bind fun reach =>
      if s ≤ reach then
        (checkedAdd s l).bind fun stop => checkedMergeFrom (ps, max reach stop - ps) rest
      else (checkedMergeFrom (s, l) rest).map ((ps, pl) :: ·)

/-- `merge_free`; `none` is an overflow. -/
def checkedMergeFree : List (ℕ × ℕ) → Option (List (ℕ × ℕ))
  | [] => some []
  | p :: rest => checkedMergeFrom p rest

/-- `Plan::unclaimed`; `none` is an overflow. -/
def Plan.checkedUnclaimed (p : Plan) : Option ℕ := (p.free.map Prod.snd).foldlM checkedAdd 0

theorem checkedAdd_eq {a b : ℕ} (h : a + b ≤ u64Max) : checkedAdd a b = some (a + b) := if_pos h

theorem checkedMergeFrom_eq (last : ℕ × ℕ) {l : List (ℕ × ℕ)} (hlast : last.1 + last.2 ≤ u64Max)
    (hl : ∀ q ∈ l, q.1 + q.2 ≤ u64Max) :
    checkedMergeFrom last l = some (mergeFreeFrom last l) ∧
      ∀ q ∈ mergeFreeFrom last l, q.1 + q.2 ≤ u64Max := by
  induction l generalizing last with
  | nil => exact ⟨rfl, by simpa [mergeFreeFrom] using hlast⟩
  | cons q l ih =>
    obtain ⟨ps, pl⟩ := last
    obtain ⟨s, n⟩ := q
    have hq : s + n ≤ u64Max := hl _ List.mem_cons_self
    have hl' : ∀ q ∈ l, q.1 + q.2 ≤ u64Max := fun q hq => hl q (List.mem_cons_of_mem _ hq)
    simp only [checkedMergeFrom, mergeFreeFrom, checkedAdd_eq hlast, checkedAdd_eq hq,
      Option.bind_some]
    split_ifs with hc
    · -- the joined range ends where the later of the two ends
      refine ih (ps, max (ps + pl) (s + n) - ps) ?_ hl'
      simp only at hlast ⊢
      omega
    · obtain ⟨heq, hends⟩ := ih (s, n) hq hl'
      refine ⟨by rw [heq, Option.map_some], ?_⟩
      intro q' hq'
      rcases List.mem_cons.1 hq' with rfl | hq'
      · exact hlast
      · exact hends q' hq'

/-- No addition of `merge_free` overflows, and the ranges it leaves end within `u64`. -/
theorem checkedMergeFree_eq {l : List (ℕ × ℕ)} (hl : ∀ q ∈ l, q.1 + q.2 ≤ u64Max) :
    checkedMergeFree l = some (mergeFree l) ∧ ∀ q ∈ mergeFree l, q.1 + q.2 ≤ u64Max := by
  cases l with
  | nil => exact ⟨rfl, by simp [mergeFree]⟩
  | cons p l =>
    exact checkedMergeFrom_eq p (hl p List.mem_cons_self)
      fun q hq => hl q (List.mem_cons_of_mem _ hq)

theorem foldlM_checkedAdd {l : List ℕ} {a : ℕ} (h : a + l.sum ≤ u64Max) :
    l.foldlM checkedAdd a = some (a + l.sum) := by
  induction l generalizing a with
  | nil => rfl
  | cons b l ih =>
    rw [List.sum_cons, ← Nat.add_assoc] at h
    rw [List.foldlM_cons, checkedAdd_eq (by omega), List.sum_cons, ← Nat.add_assoc]
    exact ih h

/-! ### The order of equal starts -/

theorem mergeFreeFrom_swap {p q : ℕ × ℕ} (hpq : p.1 = q.1) (last : ℕ × ℕ) (l : List (ℕ × ℕ)) :
    mergeFreeFrom last (p :: q :: l) = mergeFreeFrom last (q :: p :: l) := by
  obtain ⟨ps, pl⟩ := last
  obtain ⟨s, m⟩ := p
  obtain ⟨s', n⟩ := q
  obtain rfl : s = s' := hpq
  simp only [mergeFreeFrom]
  by_cases hs : s ≤ ps + pl
  · have hm : s ≤ ps + (max (ps + pl) (s + m) - ps) := by omega
    have hn : s ≤ ps + (max (ps + pl) (s + n) - ps) := by omega
    rw [if_pos hs, if_pos hs, if_pos hm, if_pos hn]
    congr 2
    omega
  · rw [if_neg hs, if_neg hs, if_pos (Nat.le_add_right s m), if_pos (Nat.le_add_right s n),
      max_comm]

theorem mergeFreeFrom_middle {p : ℕ × ℕ} {l₁ : List (ℕ × ℕ)} (h : ∀ q ∈ l₁, q.1 = p.1)
    (last : ℕ × ℕ) (l₂ : List (ℕ × ℕ)) :
    mergeFreeFrom last (l₁ ++ p :: l₂) = mergeFreeFrom last (p :: (l₁ ++ l₂)) := by
  induction l₁ generalizing last with
  | nil => rfl
  | cons q l₁ ih =>
    have ih := ih fun q' hq' => h q' (List.mem_cons_of_mem _ hq')
    rw [List.cons_append, List.cons_append, mergeFreeFrom_swap (h q List.mem_cons_self).symm]
    obtain ⟨s, n⟩ := q
    simp only [mergeFreeFrom]
    rw [ih, ih]
    rfl

theorem mergeFreeFrom_perm {l l' : List (ℕ × ℕ)} (hp : l.Perm l') (hl : l.Pairwise startLe)
    (hl' : l'.Pairwise startLe) (last : ℕ × ℕ) : mergeFreeFrom last l = mergeFreeFrom last l' := by
  induction l generalizing l' last with
  | nil => rw [hp.nil_eq]
  | cons p l ih =>
    obtain ⟨hfirst, htail⟩ := List.pairwise_cons.1 hl
    obtain ⟨l₁, l₂, rfl⟩ := List.append_of_mem (hp.subset List.mem_cons_self)
    have hperm : l.Perm (l₁ ++ l₂) := (hp.trans List.perm_middle).cons_inv
    have hsub : (l₁ ++ l₂).Sublist (l₁ ++ p :: l₂) :=
      (List.Sublist.refl l₁).append (List.sublist_cons_self p l₂)
    -- what stands before the first range of the other order has its start
    have hstart : ∀ q ∈ l₁, q.1 = p.1 := fun q hq =>
      le_antisymm ((List.pairwise_append.1 hl').2.2 q hq p List.mem_cons_self)
        (hfirst q (hperm.symm.subset (List.mem_append_left _ hq)))
    rw [mergeFreeFrom_middle hstart]
    obtain ⟨ps, pl⟩ := last
    obtain ⟨s, n⟩ := p
    simp only [mergeFreeFrom]
    rw [ih hperm htail (hl'.sublist hsub), ih hperm htail (hl'.sublist hsub)]

theorem mergeFree_cons (p : ℕ × ℕ) (l : List (ℕ × ℕ)) :
    mergeFree (p :: l) = mergeFreeFrom (p.1, 0) (p :: l) := by
  obtain ⟨s, n⟩ := p
  simp [mergeFree, mergeFreeFrom]

/-- `merge_free` gives the same list for every way to sort by start. -/
theorem mergeFree_perm {l l' : List (ℕ × ℕ)} (hp : l.Perm l') (hl : l.Pairwise startLe)
    (hl' : l'.Pairwise startLe) : mergeFree l = mergeFree l' := by
  cases l with
  | nil => rw [hp.nil_eq]
  | cons p l =>
    cases l' with
    | nil => exact absurd hp.symm.nil_eq (by simp)
    | cons p' l' =>
      have hle : ∀ {a b : ℕ × ℕ} {s t : List (ℕ × ℕ)}, (a :: s).Perm (b :: t) →
          (a :: s).Pairwise startLe → a.1 ≤ b.1 := by
        intro a b s t hperm hsorted
        rcases List.mem_cons.1 (hperm.symm.subset List.mem_cons_self) with rfl | hb
        · exact le_rfl
        · exact (List.pairwise_cons.1 hsorted).1 b hb
      have hstart : p.1 = p'.1 := le_antisymm (hle hp hl) (hle hp.symm hl')
      rw [mergeFree_cons, mergeFree_cons, hstart]
      exact mergeFreeFrom_perm hp hl hl' _

/-! ### Returning a range -/

namespace Plan

variable {p : Plan} {start len : ℕ}

theorem returnRange_eq {l : List (ℕ × ℕ)} (hlen : 0 < len) (hsorted : l.Pairwise startLe)
    (hl : l.Perm (p.free ++ [(start, len)])) :
    p.returnRange start len = { p with free := mergeFree l } := by
  rw [returnRange, if_neg hlen.ne', mergeFree_perm (hl.trans (sortByStart_perm _).symm) hsorted
    (sortByStart_pairwise _)]

theorem ends_returnRange (h : ∀ q ∈ p.free ++ [(start, len)], q.1 + q.2 ≤ u64Max) :
    ∀ q ∈ (p.returnRange start len).free, q.1 + q.2 ≤ u64Max := by
  rcases Nat.eq_zero_or_pos len with rfl | hlen
  · exact fun q hq => h q (List.mem_append_left _ hq)
  · rw [returnRange, if_neg hlen.ne']
    exact (checkedMergeFree_eq fun q hq => h q ((sortByStart_perm _).subset hq)).2

theorem checkedUnclaimed_eq (h : Apart p.free) (hends : ∀ q ∈ p.free, q.1 + q.2 ≤ u64Max) :
    p.checkedUnclaimed = some p.unclaimed := by
  have hsize : p.unclaimed ≤ u64Max := by
    refine size_le h ?_
    rintro b ⟨q, hq, -, hlt⟩
    exact hlt.trans_le (hends q hq)
  rw [checkedUnclaimed, foldlM_checkedAdd ((Nat.zero_add _).trans_le hsize), Nat.zero_add]
  rfl

/-- A returned range counts once, whatever it overlaps. -/
theorem checkedUnclaimed_returnRange (h : 0 < len ∨ Apart p.free)
    (hends : ∀ q ∈ p.free ++ [(start, len)], q.1 + q.2 ≤ u64Max) :
    (p.returnRange start len).checkedUnclaimed =
      some (cover p.free ∪ span (start, len)).ncard := by
  have ha := apart_returnRange h start
  rw [checkedUnclaimed_eq ha (ends_returnRange hends), unclaimed, ← ncard_cover ha,
    cover_returnRange]

/-- A range that no claim holds can be returned: the plan stays valid, and the open bytes are those
before and those of the range. -/
theorem Valid.returnRange_spec (h : p.Valid)
    (hd : Disjoint (span (start, len)) (cover (p.activeSlots.map ClaimSlot.range))) :
    (p.returnRange start len).Valid ∧
      cover (p.returnRange start len).ranges = cover p.ranges ∪ span (start, len) := by
  obtain ⟨hfree, hheld, hclaims⟩ := apart_append.1 h.apart
  have hcov := cover_returnRange start len p
  have hreturn : p.returnRange start len =
      { p with free := (p.returnRange start len).free } := by
    unfold returnRange
    split_ifs <;> rfl
  have hslots : (p.returnRange start len).activeSlots = p.activeSlots := by rw [hreturn]; rfl
  constructor
  · rw [hreturn]
    refine ⟨apart_append.2 ⟨apart_returnRange (Or.inr hfree) start, hheld, ?_⟩, h.nodup, h.fresh,
      h.active⟩
    rw [hcov]
    exact Set.disjoint_union_left.2 ⟨hclaims, hd⟩
  · rw [ranges, hslots, cover_append, hcov, ranges, cover_append, Set.union_right_comm]

end Plan

/-- **`merge_free` normalizes every sorted list** whose ranges end within `u64`, and a range that is
returned to the pool is counted once. -/
theorem mergeFree_normalizes {l : List (ℕ × ℕ)} (hsorted : l.Pairwise startLe)
    (hends : ∀ q ∈ l, q.1 + q.2 ≤ u64Max) :
    -- no addition overflows
    checkedMergeFree l = some (mergeFree l) ∧
      (mergeFree l).Pairwise startLe ∧ Apart (mergeFree l) ∧ Separated (mergeFree l) ∧
      cover (mergeFree l) = cover l ∧ (∀ q ∈ mergeFree l, q.1 + q.2 ≤ u64Max) ∧
      -- the list comes from a plan and a range that is returned to it
      (∀ (p : Plan) (start len : ℕ), l.Perm (p.free ++ [(start, len)]) →
        (0 < len → p.returnRange start len = { p with free := mergeFree l }) ∧
        (0 < len ∨ Apart p.free →
          (p.returnRange start len).checkedUnclaimed =
            some (cover p.free ∪ span (start, len)).ncard)) ∧
      -- or from a plan and a claim that is released
      ∀ (p : Plan) (id : ℕ) (c : ClaimSlot), p.slot? id = some c →
        l.Perm (p.free ++ [c.range]) →
        (c.cursor < c.stop → (p.release id).free = mergeFree l) ∧
        (c.cursor < c.stop ∨ Apart p.free →
          (p.release id).checkedUnclaimed = some (cover p.free ∪ span c.range).ncard) := by
  obtain ⟨hsep, hcov⟩ := mergeFree_spec hsorted
  obtain ⟨hchecked, hends'⟩ := checkedMergeFree_eq hends
  refine ⟨hchecked, hsep.imp fun h => (Nat.le_add_right _ _).trans h.le, hsep.ordered.apart, hsep,
    hcov, hends', ?_, ?_⟩
  · intro p start len hl
    exact ⟨fun hlen => Plan.returnRange_eq hlen hsorted hl,
      fun h => Plan.checkedUnclaimed_returnRange h fun q hq => hends q (hl.symm.subset hq)⟩
  · intro p id c hc hl
    have hfree := Plan.release_free hc
    have hpos : c.cursor < c.stop ↔ 0 < c.remaining := Nat.sub_pos_iff_lt.symm
    rw [hpos]
    constructor
    · intro hlen
      rw [hfree, Plan.returnRange_eq hlen hsorted hl]
    · intro h
      have hcount := Plan.checkedUnclaimed_returnRange h fun q hq => hends q (hl.symm.subset hq)
      unfold Plan.checkedUnclaimed at hcount ⊢
      rw [hfree, hcount]
      rfl

/-- A range inside another, one that touches it, one that overlaps the end, and one apart. -/
theorem mergeFree_normalizes_overlap :
    checkedMergeFree [(0, 10), (2, 3), (10, 5), (12, 8), (30, 1)] = some [(0, 20), (30, 1)] ∧
      (Plan.returnRange 2 3
        ⟨some 31, [(0, 10), (10, 5), (12, 8), (30, 1)], [], 0⟩).checkedUnclaimed =
        some (cover [(0, 10), (10, 5), (12, 8), (30, 1)] ∪ span (2, 3)).ncard ∧
      (Plan.release 7 ⟨some 31, [(0, 10), (10, 5), (12, 8), (30, 1)], [⟨7, 2, 5, true⟩], 8⟩).free =
        [(0, 20), (30, 1)] := by
  have h := mergeFree_normalizes (l := [(0, 10), (2, 3), (10, 5), (12, 8), (30, 1)]) (by decide)
    (by decide)
  obtain ⟨hchecked, -, -, -, -, -, hreturn, hrelease⟩ := h
  refine ⟨hchecked, ?_, ?_⟩
  · exact (hreturn ⟨some 31, [(0, 10), (10, 5), (12, 8), (30, 1)], [], 0⟩ 2 3 (by decide)).2
      (Or.inl (by decide))
  · exact (hrelease ⟨some 31, [(0, 10), (10, 5), (12, 8), (30, 1)], [⟨7, 2, 5, true⟩], 8⟩ 7
      ⟨7, 2, 5, true⟩ rfl (by decide)).1 (by decide)

-- overlapping returns are not counted twice
example : ((((Plan.new (some (100 * 2 ^ 20)) ⟨[]⟩).request.1.release 0).returnRange 0
    (10 * 2 ^ 20)).returnRange (10 * 2 ^ 20) (10 * 2 ^ 20)).unclaimed = 100 * 2 ^ 20 := by decide

end SwiftLoad
