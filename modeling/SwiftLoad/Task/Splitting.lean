import SwiftLoad.Task.Accounting
import SwiftLoad.Util.Queries

/-!
# What is planned, and how it is cut up

A plan starts from the gaps in what is on disk.  It is cut up in two places: `seed` halves the
largest free range until there are enough pieces, and `request` halves the largest live claim when
nothing is free.  Both round the middle up to the split boundary, and both look at the length of
the whole only, not at what the rounding leaves of the second half.

* `plan_covers_iff` : **a plan covers exactly what is missing when the size is known or the set on
  disk has no hole.**
* `Cut` : a range that is cut, with the lists of the cuts that `seed` makes (`Plan.seedCuts`,
  `seedLoop_eq_foldl`) and the one that a request makes (`Plan.stealCut`).
* `no_slivers_iff` : **which cuts leave a piece smaller than a segment.**
* `Plan.request_steal` : what a request does when nothing is free.
* `request_complete` : **a request finds work exactly when there is some, and stays within `u64`.**
-/

namespace SwiftLoad

open Ranges

/-! ### What is planned -/

/-- Without a size the plan starts at the end of what is on disk. -/
theorem mem_cover_new_none {completed : RangeSet} (hend : completed.endPos ≤ u64Max) {b : ℕ} :
    b ∈ cover (Plan.new none completed).free ↔ completed.endPos ≤ b ∧ b < u64Max := by
  simp only [Plan.new, mem_cover_cons, cover_nil, Set.mem_empty_iff_false, or_false]
  omega

/-- **Planned and missing.**  The free ranges of a new plan are disjoint and make up the missing
bytes of the file, or of all places when its size is not known, exactly when the size is known or
no byte below the highest one on disk is missing. -/
theorem plan_covers_iff {completed : RangeSet} (hc : completed.Canonical)
    (hmax : ∀ p ∈ completed.spans, p.1 + p.2 ≤ u64Max) (total : Option ℕ) :
    (Apart (Plan.new total completed).free ∧ cover (Plan.new total completed).free =
      Set.Ico 0 (total.getD u64Max) \ completed.covered) ↔
        total.isSome = true ∨ ∀ b < completed.endPos, b ∈ completed.covered := by
  cases total with
  | some t =>
    refine iff_of_true ⟨?_, RangeSet.cover_gapsIn hc.ordered 0 t⟩ (Or.inl rfl)
    exact (RangeSet.gapsIn_spec hc.ordered 0 t).1.apart
  | none =>
    have hend := RangeSet.endPos_le hmax
    rw [or_iff_right (show ¬(none : Option ℕ).isSome = true by decide)]
    constructor
    · rintro ⟨-, hcov⟩ b hb
      by_contra hmiss
      -- a byte that is missing below the end would have to be planned
      have hplanned : b ∈ cover (Plan.new none completed).free :=
        hcov ▸ ⟨⟨Nat.zero_le b, hb.trans_le hend⟩, hmiss⟩
      have := (mem_cover_new_none hend).1 hplanned
      omega
    · intro hfull
      refine ⟨(List.pairwise_singleton _ _ : Apart _), Set.ext fun b => ?_⟩
      rw [mem_cover_new_none hend]
      constructor
      · rintro ⟨hge, hlt⟩
        exact ⟨⟨Nat.zero_le b, hlt⟩, fun hb =>
          absurd (RangeSet.lt_endPos hc.ordered hb) (Nat.not_lt.2 hge)⟩
      · rintro ⟨⟨-, hlt⟩, hmiss⟩
        exact ⟨Nat.not_lt.1 fun hb => hmiss (hfull b hb), hlt⟩

/-- A download of unknown size goes on after its first three bytes. -/
theorem plan_covers_first_bytes :
    cover (Plan.new none ⟨[(0, 3)]⟩).free =
      Set.Ico 0 u64Max \ (RangeSet.mk [(0, 3)]).covered := by
  have hc : (RangeSet.mk [(0, 3)]).Canonical := by decide
  refine ((plan_covers_iff hc (by decide) none).2 (Or.inr ?_)).2
  exact fun b hb => ⟨(0, 3), by decide, Nat.zero_le b, hb⟩

/-- With a hole among them, the byte in the hole is not planned. -/
theorem plan_misses_hole :
    (RangeSet.mk [(0, 1), (2, 1)]).Canonical ∧
      1 ∈ Set.Ico 0 u64Max \ (RangeSet.mk [(0, 1), (2, 1)]).covered ∧
      1 ∉ cover (Plan.new none ⟨[(0, 1), (2, 1)]⟩).free := by
  refine ⟨by decide, ⟨⟨by decide, by decide⟩, ?_⟩, ?_⟩
  · rintro ⟨p, hp, h₁, h₂⟩
    simp only [List.mem_cons, List.not_mem_nil, or_false] at hp
    rcases hp with rfl | rfl <;> omega
  · rw [mem_cover_new_none (by decide)]
    decide

/-! ### Cuts -/

/-- A range that is cut in two. -/
structure Cut where
  start : ℕ
  splitAt : ℕ
  stop : ℕ
deriving DecidableEq, Repr

/-- Neither piece is smaller than a segment. -/
def Cut.Worthwhile (c : Cut) : Prop :=
  minSegment ≤ c.splitAt - c.start ∧ minSegment ≤ c.stop - c.splitAt

theorem alignUp_le_iff {v w : ℕ} :
    alignUp v ≤ w ↔ ∃ k, v ≤ k * splitAlign ∧ k * splitAlign ≤ w := by
  constructor
  · exact fun h => ⟨(v + splitAlign - 1) / splitAlign, le_alignUp v, h⟩
  · rintro ⟨k, hv, hw⟩
    refine le_trans (Nat.mul_le_mul_right _ ?_) hw
    have hpos : 0 < splitAlign := by decide
    exact Nat.le_of_lt_succ ((Nat.div_lt_iff_lt_mul hpos).2 (by rw [Nat.succ_mul]; omega))

namespace Plan

/-- One round of `seed`: the place of the largest free range, and its cut. -/
def seedCut (free : List (ℕ × ℕ)) : Option (ℕ × Cut) :=
  match maxByKey (fun q => q.1.2) free.zipIdx with
  | none => none
  | some ((start, len), idx) =>
    if len < minSegment * 2 then none
    else
      let half := alignUp (len / 2)
      if half = 0 ∨ len ≤ half then none else some (idx, ⟨start, start + half, start + len⟩)

/-- The free list after a round. -/
def cutAt (free : List (ℕ × ℕ)) (c : ℕ × Cut) : List (ℕ × ℕ) :=
  sortByStart (free.set c.1 (c.2.start, c.2.splitAt - c.2.start) ++
    [(c.2.splitAt, c.2.stop - c.2.splitAt)])

/-- The rounds of `seedLoop`. -/
def seedRounds : ℕ → List (ℕ × ℕ) → List (ℕ × Cut)
  | 0, _ => []
  | fuel + 1, free =>
    match seedCut free with
    | none => []
    | some c => c :: seedRounds fuel (cutAt free c)

/-- The rounds of `seed`. -/
def seedCuts (n : ℕ) (p : Plan) : List (ℕ × Cut) :=
  if n ≤ 1 ∨ n ≤ p.free.length then [] else seedRounds (n - p.free.length) p.free

/-- The claim that is cut when nothing is free. -/
def victim? (p : Plan) : Option ClaimSlot := maxByKey ClaimSlot.remaining p.activeSlots

/-- The cut of a claim's unfetched range that a request makes. -/
def stealCut (p : Plan) : Option Cut :=
  match p.free, p.victim?, p.request.2 with
  | [], some victim, .claim c => some ⟨victim.cursor, c.cursor, victim.stop⟩
  | _, _, _ => none

variable {p : Plan} {free : List (ℕ × ℕ)} {n : ℕ} {victim : ClaimSlot}

/-! ### The cuts of `seed` -/

theorem seedLoop_succ (fuel : ℕ) (free : List (ℕ × ℕ)) :
    seedLoop (fuel + 1) free = (seedCut free).elim free fun c => seedLoop fuel (cutAt free c) := by
  simp only [seedLoop, seedCut]
  cases maxByKey (fun q : (ℕ × ℕ) × ℕ => q.1.2) free.zipIdx with
  | none => rfl
  | some q =>
    obtain ⟨⟨start, len⟩, idx⟩ := q
    dsimp only
    split_ifs with h₁ h₂
    · rfl
    · rfl
    · simp only [Option.elim_some, cutAt, Nat.add_sub_cancel_left, Nat.add_sub_add_left]

theorem seedLoop_eq_foldl (fuel : ℕ) (free : List (ℕ × ℕ)) :
    seedLoop fuel free = (seedRounds fuel free).foldl cutAt free := by
  induction fuel generalizing free with
  | zero => rfl
  | succ fuel ih =>
    rw [seedLoop_succ]
    cases hc : seedCut free with
    | none => simp only [seedRounds, hc, Option.elim_none, List.foldl_nil]
    | some c => simp only [seedRounds, hc, Option.elim_some, List.foldl_cons, ih]

/-- The cut of a round goes through a free range of two segments at least, at the boundary after
its middle. -/
theorem seedCut_spec {c : ℕ × Cut} (h : seedCut free = some c) :
    free[c.1]? = some (c.2.start, c.2.stop - c.2.start) ∧
      minSegment * 2 ≤ c.2.stop - c.2.start ∧
      c.2.splitAt = c.2.start + alignUp ((c.2.stop - c.2.start) / 2) := by
  unfold seedCut at h
  cases hm : maxByKey (fun q : (ℕ × ℕ) × ℕ => q.1.2) free.zipIdx with
  | none => rw [hm] at h; cases h
  | some q =>
    obtain ⟨⟨start, len⟩, idx⟩ := q
    rw [hm] at h
    dsimp only at h
    split_ifs at h with h₁ h₂
    obtain rfl := Option.some.inj h
    have hget := List.mem_zipIdx_iff_getElem?.1 (mem_of_maxByKey hm)
    have hlen : start + len - start = len := Nat.add_sub_cancel_left _ _
    dsimp only
    rw [hlen]
    exact ⟨hget, Nat.not_lt.1 h₁, rfl⟩

theorem exists_seedCut {fuel : ℕ} {c : ℕ × Cut} (h : c ∈ seedRounds fuel free) :
    ∃ free', seedCut free' = some c := by
  induction fuel generalizing free with
  | zero => cases h
  | succ fuel ih =>
    simp only [seedRounds] at h
    cases hc : seedCut free with
    | none => rw [hc] at h; cases h
    | some c' =>
      rw [hc] at h
      rcases List.mem_cons.1 h with rfl | h
      · exact ⟨free, hc⟩
      · exact ih h

theorem worthwhile_seedCut_iff {c : ℕ × Cut} (h : seedCut free = some c) :
    c.2.Worthwhile ↔ ¬(2 * minSegment + 2 ≤ c.2.stop - c.2.start ∧
      c.2.stop - c.2.start < 2 * minSegment + splitAlign) := by
  obtain ⟨-, hlen, hsplit⟩ := seedCut_spec h
  unfold Cut.Worthwhile
  rw [hsplit]
  simp only [alignUp, minSegment, splitAlign] at hlen ⊢
  omega

/-! ### The cut of a request -/

/-- What a request does when nothing is free: the guard on the place of the cut never fires. -/
theorem request_steal (hfree : p.free = []) (hv : p.victim? = some victim) :
    p.request =
      if victim.remaining < minSegment * 2 then (p, .exhausted)
      else
        ((p.modifySlot victim.id (ClaimSlot.shrink
            (alignUp (victim.cursor + victim.remaining / 2)))).pushSlot
              (alignUp (victim.cursor + victim.remaining / 2)) victim.stop,
          .claim ⟨p.nextId, alignUp (victim.cursor + victim.remaining / 2), victim.stop,
            true⟩) := by
  have hle := le_alignUp (victim.cursor + victim.remaining / 2)
  have hlt := alignUp_lt (victim.cursor + victim.remaining / 2)
  have hsteal : p.request = p.steal := by
    unfold request
    rw [hfree]
    rfl
  unfold victim? at hv
  rw [hsteal]
  unfold steal
  rw [hv]
  dsimp only
  split_ifs with h₁ h₂
  · rfl
  · exfalso
    simp only [ClaimSlot.remaining, minSegment, splitAlign] at h₁ h₂ hle hlt
    omega
  · rfl

theorem request_exhausted_iff (p : Plan) : p.request.2 = .exhausted ↔
    p.free = [] ∧ ∀ c ∈ p.activeSlots, c.remaining < minSegment * 2 := by
  rcases p.request_cases with ⟨idx, start, len, hget, -, hr⟩ | ⟨hfree, hsmall, hr⟩ |
    ⟨hfree, victim, hv, splitAt, -, hbig, -, -, hr⟩
  · rw [hr]
    refine iff_of_false (by simp) ?_
    rintro ⟨hfree, -⟩
    rw [hfree] at hget
    simp at hget
  · rw [hr]
    exact iff_of_true rfl ⟨hfree, hsmall⟩
  · rw [hr]
    refine iff_of_false (by simp) ?_
    rintro ⟨-, hsmall⟩
    exact absurd (hsmall victim hv) (Nat.not_lt.2 hbig)

theorem exists_victim {thief : ClaimSlot} (hfree : p.free = []) (h : p.request.2 = .claim thief) :
    ∃ victim ∈ p.activeSlots, p.victim? = some victim := by
  cases hv : p.victim? with
  | none =>
    exfalso
    have hnone : p.activeSlots = [] := maxByKey_eq_none.1 hv
    have hex : p.request.2 = .exhausted :=
      (request_exhausted_iff p).2 ⟨hfree, by rw [hnone]; exact List.forall_mem_nil _⟩
    rw [hex] at h
    cases h
  | some victim => exact ⟨victim, mem_of_maxByKey hv, rfl⟩

/-- The cut goes through a claim of two segments at least, at the boundary after the middle. -/
theorem stealCut_spec {c : Cut} (h : p.stealCut = some c) :
    minSegment * 2 ≤ c.stop - c.start ∧ c.splitAt = alignUp (c.start + (c.stop - c.start) / 2) := by
  unfold stealCut at h
  split at h
  · rename_i victim d hfree hv hd
    rw [request_steal hfree hv] at hd
    split_ifs at hd with hsmall
    obtain rfl := Grant.claim.inj hd
    obtain rfl := Option.some.inj h
    exact ⟨Nat.not_lt.1 hsmall, rfl⟩
  · cases h

theorem worthwhile_stealCut_iff {c : Cut} (h : p.stealCut = some c) :
    c.Worthwhile ↔ ∃ k, c.start + (c.stop - c.start) / 2 ≤ k * splitAlign ∧
      k * splitAlign ≤ c.stop - minSegment := by
  obtain ⟨hlen, hsplit⟩ := stealCut_spec h
  rw [← alignUp_le_iff, ← hsplit]
  have hle := le_alignUp (c.start + (c.stop - c.start) / 2)
  unfold Cut.Worthwhile
  simp only [minSegment] at hlen ⊢
  omega

end Plan

/-- **Slivers.**  For every plan, `seed` is the cuts it makes one after the other; each leaves two
pieces of a segment or more exactly when the range is not between two segments and two segments and
a boundary long, and the cut of a request does exactly when a boundary lies between the middle of
the claim's unfetched range and one segment before its end. -/
theorem no_slivers_iff (p : Plan) :
    (∀ n, (p.seed n).free = (p.seedCuts n).foldl Plan.cutAt p.free ∧
      ∀ c ∈ p.seedCuts n, c.2.Worthwhile ↔ ¬(2 * minSegment + 2 ≤ c.2.stop - c.2.start ∧
        c.2.stop - c.2.start < 2 * minSegment + splitAlign)) ∧
    ∀ c, p.stealCut = some c → (c.Worthwhile ↔
      ∃ k, c.start + (c.stop - c.start) / 2 ≤ k * splitAlign ∧
        k * splitAlign ≤ c.stop - minSegment) := by
  refine ⟨fun n => ⟨?_, fun c hc => ?_⟩, fun c hc => Plan.worthwhile_stealCut_iff hc⟩
  · unfold Plan.seed Plan.seedCuts
    split_ifs
    · rfl
    · exact Plan.seedLoop_eq_foldl _ _
  · unfold Plan.seedCuts at hc
    split_ifs at hc
    · cases hc
    · obtain ⟨free, hfree⟩ := Plan.exists_seedCut hc
      exact Plan.worthwhile_seedCut_iff hfree

/-- Five MiB are cut well. -/
theorem no_slivers_five :
    (Plan.new (some 5242880) .new).seedCuts 2 = [(0, ⟨0, 3145728, 5242880⟩)] ∧
      (Cut.mk 0 3145728 5242880).Worthwhile := by
  have hcuts : (Plan.new (some 5242880) .new).seedCuts 2 = [(0, ⟨0, 3145728, 5242880⟩)] := by
    decide
  have hmem : (0, Cut.mk 0 3145728 5242880) ∈ (Plan.new (some 5242880) .new).seedCuts 2 := by
    rw [hcuts]
    exact List.mem_cons_self
  have hiff := ((no_slivers_iff (Plan.new (some 5242880) .new)).1 2).2 _ hmem
  exact ⟨hcuts, hiff.2 (by decide)⟩

/-- Two bytes more than four MiB are cut into three MiB and the rest, by either. -/
theorem sliver :
    (Plan.new (some 4194306) .new).seedCuts 2 = [(0, ⟨0, 3145728, 4194306⟩)] ∧
      (Plan.new (some 4194306) .new).request.1.stealCut = some ⟨0, 3145728, 4194306⟩ ∧
      ¬(Cut.mk 0 3145728 4194306).Worthwhile := by
  refine ⟨by decide, by decide, ?_⟩
  unfold Cut.Worthwhile
  decide

/-! ### Complete requests -/

theorem cover_new_subset {total : Option ℕ} (ht : ∀ t ∈ total, t ≤ u64Max) {completed : RangeSet}
    (hc : completed.Ordered) :
    cover (Plan.new total completed).ranges ⊆ Set.Iio u64Max := by
  rw [Plan.ranges_new]
  cases total with
  | some t =>
    intro b hb
    rw [← Plan.ranges_new, Plan.cover_ranges_new t hc] at hb
    exact lt_of_lt_of_le hb.1 (ht t rfl)
  | none =>
    intro b hb
    simp only [Plan.new, mem_cover_cons, cover_nil, Set.mem_empty_iff_false, or_false] at hb
    simp only [Set.mem_Iio]
    omega

theorem Accounted.stop_le {work : Set ℕ} {s : PlanRun} (h : Accounted work s) {m : ℕ}
    (hwork : work ⊆ Set.Iio m) {c : ClaimSlot} (hc : c ∈ s.plan.activeSlots)
    (hrem : 0 < c.remaining) : c.stop ≤ m := by
  unfold ClaimSlot.remaining at hrem
  have hopen : c.stop - 1 ∈ cover s.plan.ranges := by
    refine mem_cover_of_mem (p := c.range)
      (List.mem_append_right _ (List.mem_map_of_mem hc)) ?_ ?_
    · simp only [ClaimSlot.range]
      omega
    · simp only [ClaimSlot.range, ClaimSlot.remaining]
      omega
  have hlt : c.stop - 1 < m := hwork (h.work_eq ▸ Or.inr hopen)
  omega

/-- **Complete stealing.**  In every state a plan in use can reach, whether the size is known or
not, a request finds nothing exactly when nothing is free and no live claim has two segments left.
When it steals, the thief gets the part of the largest claim from a place inside it, and no number
on the way to that place is larger than a `u64`. -/
theorem request_complete {total : Option ℕ} (ht : ∀ t ∈ total, t ≤ u64Max) {completed : RangeSet}
    (hc : completed.Canonical) {s : PlanRun}
    (h : planMachine.Reaches (PlanRun.init total completed) s) :
    (s.plan.request.2 = .exhausted ↔
      s.plan.free = [] ∧ ∀ c ∈ s.plan.activeSlots, c.remaining < minSegment * 2) ∧
    (s.plan.free = [] → ∀ thief, s.plan.request.2 = .claim thief →
      ∃ victim ∈ s.plan.activeSlots, s.plan.victim? = some victim ∧
        s.plan.request.1 =
          (s.plan.modifySlot victim.id (ClaimSlot.shrink thief.cursor)).pushSlot
            thief.cursor victim.stop ∧
        victim.cursor < thief.cursor ∧ thief.cursor < victim.stop ∧ thief.stop = victim.stop ∧
        thief.cursor = alignUp (victim.cursor + victim.remaining / 2) ∧
        victim.cursor + victim.remaining / 2 ≤ u64Max ∧
        alignUp (victim.cursor + victim.remaining / 2) ≤ u64Max) := by
  have hacc := (Accounted.init total hc.ordered).run h
  refine ⟨Plan.request_exhausted_iff _, fun hfree thief hthief => ?_⟩
  obtain ⟨victim, hmem, hv⟩ := Plan.exists_victim hfree hthief
  rw [Plan.request_steal hfree hv] at hthief ⊢
  split_ifs at hthief ⊢ with hsmall
  obtain rfl := Grant.claim.inj hthief
  have hstop := hacc.stop_le (cover_new_subset ht hc.ordered) hmem
    (by simp only [minSegment] at hsmall; omega)
  have hle := le_alignUp (victim.cursor + victim.remaining / 2)
  have hlt := alignUp_lt (victim.cursor + victim.remaining / 2)
  refine ⟨victim, hmem, hv, rfl, ?_, ?_, rfl, rfl, ?_, ?_⟩ <;>
    simp only [ClaimSlot.remaining, minSegment, splitAlign] at hsmall hle hlt ⊢ <;> omega

/-- Of an unknown size, the second worker takes the upper half of all places. -/
theorem request_complete_open :
    ∃ s, planMachine.exec (PlanRun.init none .new) [.seed 1, .request] = some s ∧
      s.plan.request.2 = .claim ⟨1, 9223372036854775808, u64Max, true⟩ ∧
      (s.plan.request.2 = .exhausted ↔
        s.plan.free = [] ∧ ∀ c ∈ s.plan.activeSlots, c.remaining < minSegment * 2) := by
  refine ⟨_, rfl, by decide, ?_⟩
  have hc : RangeSet.new.Canonical := by decide
  have hreach : planMachine.Reaches (PlanRun.init none .new) _ :=
    Machine.reaches_of_exec (show planMachine.exec (PlanRun.init none .new)
      [.seed 1, .request] = some _ from rfl)
  exact (request_complete (by simp) hc hreach).1

end SwiftLoad
