import SwiftLoad.Machine.Basic
import SwiftLoad.Task.Plan

/-!
# Exact accounting of the planned work

The planner moves bytes between owners: from the free list to a claim (`Plan.request`), from one
claim to another (a steal), from a claim back to the free list (`Plan.release`), from a claim to
the writer (a worker's chunk).  This file proves that none is lost or owned twice, over every
interleaving.

* `Plan.ranges` : the free ranges and the ranges of the live claims.
* `Plan.Valid` : the planner's own invariant; each operation has a lemma `Valid.op` and a lemma
  that says which bytes stay open.
* `planMachine` : the planner with workers that take chunks in two phases, hand the bytes over
  first and advance the cursor later.
* `work_accounted` : **in every reachable state the open ranges are disjoint, and together with
  what was done before and what was handed over they cover the file.**
-/

namespace SwiftLoad

open Ranges

namespace Plan

variable {p : Plan} {c : ClaimSlot}

/-- The free ranges, then the unfetched ranges of the live claims. -/
def ranges (p : Plan) : List (ℕ × ℕ) := p.free ++ p.activeSlots.map ClaimSlot.range

/-- The planner's invariant. -/
structure Valid (p : Plan) : Prop where
  apart : Apart p.ranges
  nodup : (p.slots.map ClaimSlot.id).Nodup
  fresh : ∀ c ∈ p.slots, c.id < p.nextId
  active : ∀ c ∈ p.slots, c.active = true

theorem outstanding_eq_size (p : Plan) : p.outstanding = size p.ranges := by
  have hmap : (p.activeSlots.map ClaimSlot.range).map Prod.snd =
      p.activeSlots.map ClaimSlot.remaining := by
    rw [List.map_map]; rfl
  rw [ranges, size_append, outstanding, size, size, hmap]

theorem Valid.outstanding_eq (h : p.Valid) : p.outstanding = (cover p.ranges).ncard := by
  rw [ncard_cover h.apart, outstanding_eq_size]

theorem ranges_of_active (h : ∀ c ∈ p.slots, c.active = true) :
    p.ranges = p.free ++ p.slots.map ClaimSlot.range := by
  rw [ranges, activeSlots, List.filter_eq_self.2 h]

@[simp] theorem pushSlot_ranges (start stop : ℕ) (p : Plan) :
    (p.pushSlot start stop).ranges = p.ranges ++ [(start, stop - start)] := by
  simp [ranges, activeSlots, ClaimSlot.range, ClaimSlot.remaining]

theorem Valid.pushSlot {start stop : ℕ} (h : p.Valid)
    (ha : Apart ((start, stop - start) :: p.ranges)) : (p.pushSlot start stop).Valid where
  apart := by
    rw [pushSlot_ranges]
    exact ha.perm (List.perm_append_singleton _ _).symm
  nodup := by
    rw [pushSlot_slots, List.map_append, List.nodup_append]
    refine ⟨h.nodup, by simp, ?_⟩
    simp only [List.map_cons, List.map_nil, List.mem_map, List.mem_singleton]
    rintro _ ⟨d, hd, rfl⟩ _ rfl
    exact (h.fresh d hd).ne
  fresh := fun d hd => by
    rcases mem_pushSlot.1 hd with hd | rfl
    · exact (h.fresh d hd).trans (Nat.lt_succ_self _)
    · exact Nat.lt_succ_self _
  active := fun d hd => by
    rcases mem_pushSlot.1 hd with hd | rfl
    · exact h.active d hd
    · rfl

/-! ### One slot among the others -/

theorem Valid.split (h : p.Valid) (hc : c ∈ p.slots) :
    ∃ l₁ l₂, p.slots = l₁ ++ c :: l₂ ∧ (∀ d ∈ l₁, d.id ≠ c.id) ∧ ∀ d ∈ l₂, d.id ≠ c.id := by
  obtain ⟨l₁, l₂, hs⟩ := List.append_of_mem hc
  have hn := h.nodup
  rw [hs, List.map_append, List.map_cons, List.nodup_append, List.nodup_cons] at hn
  obtain ⟨-, ⟨h₂, -⟩, h₁⟩ := hn
  refine ⟨l₁, l₂, hs, ?_, ?_⟩
  · intro d hd
    exact h₁ _ (List.mem_map_of_mem hd) _ List.mem_cons_self
  · intro d hd hid
    exact h₂ (hid ▸ List.mem_map_of_mem hd)

theorem modifySlot_split {l₁ l₂ : List ClaimSlot} (hs : p.slots = l₁ ++ c :: l₂)
    (h₁ : ∀ d ∈ l₁, d.id ≠ c.id) (h₂ : ∀ d ∈ l₂, d.id ≠ c.id) (f : ClaimSlot → ClaimSlot) :
    (p.modifySlot c.id f).slots = l₁ ++ f c :: l₂ := by
  have hid : ∀ l : List ClaimSlot, (∀ d ∈ l, d.id ≠ c.id) →
      (l.map fun d => if d.id = c.id then f d else d) = l := fun l hl =>
    (List.map_congr_left fun d hd => if_neg (hl d hd)).trans (List.map_id l)
  rw [modifySlot, hs, List.map_append, List.map_cons, if_pos rfl, hid l₁ h₁, hid l₂ h₂]

theorem slot?_split {l₁ l₂ : List ClaimSlot} (hs : p.slots = l₁ ++ c :: l₂)
    (h₁ : ∀ d ∈ l₁, d.id ≠ c.id) : p.slot? c.id = some c := by
  rw [slot?, hs, List.find?_append, List.find?_eq_none.2 (by simpa using h₁)]
  simp

theorem Valid.slot?_eq (h : p.Valid) (hc : c ∈ p.slots) : p.slot? c.id = some c := by
  obtain ⟨l₁, l₂, hs, h₁, -⟩ := h.split hc
  exact slot?_split hs h₁

theorem Valid.eq_of_id_eq (h : p.Valid) {d : ClaimSlot} (hc : c ∈ p.slots) (hd : d ∈ p.slots)
    (hid : c.id = d.id) : c = d := by
  have := h.slot?_eq hc
  rw [hid, h.slot?_eq hd] at this
  exact (Option.some.inj this).symm

theorem Valid.modify_ranges (h : p.Valid) (hc : c ∈ p.slots) :
    ∃ rest, p.ranges.Perm (c.range :: rest) ∧ ∀ f : ClaimSlot → ClaimSlot,
      (f c).active = true → (p.modifySlot c.id f).ranges.Perm ((f c).range :: rest) := by
  obtain ⟨l₁, l₂, hs, h₁, h₂⟩ := h.split hc
  have hperm : ∀ d : ClaimSlot, (p.free ++ (l₁ ++ d :: l₂).map ClaimSlot.range).Perm
      (d.range :: (p.free ++ (l₁ ++ l₂).map ClaimSlot.range)) := fun d => by
    simp only [List.map_append, List.map_cons, ← List.append_assoc]
    exact List.perm_middle
  refine ⟨p.free ++ (l₁ ++ l₂).map ClaimSlot.range, ?_, ?_⟩
  · rw [ranges_of_active h.active, hs]
    exact hperm c
  · intro f hf
    have hslots := modifySlot_split hs h₁ h₂ f
    rw [ranges_of_active, hslots]
    · exact hperm (f c)
    · rw [hslots]
      intro d hd
      have hact := h.active
      rw [hs] at hact
      simp only [List.mem_append, List.mem_cons] at hd hact
      rcases hd with hd | rfl | hd
      · exact hact d (Or.inl hd)
      · exact hf
      · exact hact d (Or.inr (Or.inr hd))

theorem Valid.modifySlot (h : p.Valid) (id : ℕ) (f : ClaimSlot → ClaimSlot)
    (hid : ∀ d, (f d).id = d.id) (hact : ∀ d, (f d).active = d.active)
    (ha : Apart (p.modifySlot id f).ranges) : (p.modifySlot id f).Valid where
  apart := ha
  nodup := by
    have hmap : (p.modifySlot id f).slots.map ClaimSlot.id = p.slots.map ClaimSlot.id := by
      simp only [Plan.modifySlot, List.map_map]
      refine List.map_congr_left ?_
      intro d _
      simp only [Function.comp]
      split_ifs
      · exact hid d
      · rfl
    exact hmap ▸ h.nodup
  fresh := fun d hd => by
    obtain ⟨d₀, hd₀, rfl⟩ := mem_modifySlot.1 hd
    split_ifs
    · exact (hid d₀).symm ▸ h.fresh d₀ hd₀
    · exact h.fresh d₀ hd₀
  active := fun d hd => by
    obtain ⟨d₀, hd₀, rfl⟩ := mem_modifySlot.1 hd
    split_ifs
    · exact (hact d₀).trans (h.active d₀ hd₀)
    · exact h.active d₀ hd₀

/-! ### The operations -/

theorem valid_new (total : Option ℕ) {completed : RangeSet} (hc : completed.Ordered) :
    (new total completed).Valid := by
  have hfree : Ranges.Ordered (new total completed).free := by
    cases total with
    | none => exact List.pairwise_singleton _ _
    | some t => exact (RangeSet.gapsIn_spec hc 0 t).1
  refine ⟨?_, by simp [new], by simp [new], by simp [new]⟩
  rw [ranges_of_active (by simp [new])]
  simpa [new] using hfree.apart

theorem ranges_new (total : Option ℕ) (completed : RangeSet) :
    (new total completed).ranges = (new total completed).free := by
  simp [ranges, activeSlots, new]

theorem cover_ranges_new (t : ℕ) {completed : RangeSet} (hc : completed.Ordered) :
    cover (new (some t) completed).ranges = Set.Iio t \ completed.covered := by
  rw [ranges_new]
  ext b
  simp [new, RangeSet.cover_gapsIn hc]

theorem not_mem_cover_new (total : Option ℕ) {completed : RangeSet} (hc : completed.Ordered) {b : ℕ}
    (hb : b ∈ completed.covered) : b ∉ cover (new total completed).ranges := by
  cases total with
  | some t =>
    rw [cover_ranges_new t hc]
    exact fun h => h.2 hb
  | none =>
    rw [ranges_new]
    rintro ⟨p, hp, hle, -⟩
    obtain rfl := List.mem_singleton.1 hp
    exact absurd (RangeSet.lt_endPos hc hb) (Nat.not_lt.2 hle)

/-- Splitting the free list keeps it disjoint from the `rest` and covers the same bytes. -/
theorem seedLoop_spec (fuel : ℕ) (free rest : List (ℕ × ℕ)) (ha : Apart (free ++ rest)) :
    Apart (seedLoop fuel free ++ rest) ∧
      cover (seedLoop fuel free ++ rest) = cover (free ++ rest) := by
  induction fuel generalizing free with
  | zero => exact ⟨ha, rfl⟩
  | succ fuel ih =>
    unfold seedLoop
    cases hm : maxByKey (fun q : (ℕ × ℕ) × ℕ => q.1.2) free.zipIdx with
    | none => exact ⟨ha, rfl⟩
    | some q =>
      obtain ⟨⟨start, len⟩, idx⟩ := q
      simp only
      split_ifs with h₁ h₂
      · exact ⟨ha, rfl⟩
      · exact ⟨ha, rfl⟩
      · generalize alignUp (len / 2) = half at h₂ ⊢
        obtain ⟨hidx, hget⟩ := List.getElem?_eq_some_iff.1
          (List.mem_zipIdx_iff_getElem?.1 (mem_of_maxByKey hm))
        -- the list before the cut and after it, up to order
        have hold : (free ++ rest).Perm
            ((start, half + (len - half)) :: (free.eraseIdx idx ++ rest)) := by
          have := (List.getElem_cons_eraseIdx_perm hidx).symm
          rw [hget] at this
          rw [show half + (len - half) = len by omega]
          exact this.append_right rest
        have hsort := sortByStart_perm (free.set idx (start, half) ++ [(start + half, len - half)])
        have hset : (free.set idx (start, half) ++ [(start + half, len - half)]).Perm
            ((start, half) :: (start + half, len - half) :: free.eraseIdx idx) := by
          refine ((List.set_perm_cons_eraseIdx hidx _).append_right _).trans ?_
          exact (List.perm_append_singleton _ _).cons _ |>.trans (List.Perm.swap _ _ _) |>.trans
            (List.Perm.swap _ _ _)
        have hnew := hsort.trans hset
        obtain ⟨h₃, h₄⟩ := ih (sortByStart _)
          ((apart_split.2 (ha.perm hold)).perm (hnew.append_right rest).symm)
        refine ⟨h₃, h₄.trans ?_⟩
        rw [cover_perm (hnew.append_right rest), cover_perm hold]
        exact cover_split start half (len - half) _

theorem Valid.seed (h : p.Valid) (n : ℕ) : (p.seed n).Valid := by
  unfold Plan.seed
  split_ifs
  · exact h
  · exact ⟨(seedLoop_spec (n - p.free.length) p.free _ h.apart).1, h.nodup, h.fresh, h.active⟩

theorem Valid.cover_seed (h : p.Valid) (n : ℕ) : cover (p.seed n).ranges = cover p.ranges := by
  unfold Plan.seed
  split_ifs
  · rfl
  · exact (seedLoop_spec (n - p.free.length) p.free _ h.apart).2

theorem Valid.request_spec (h : p.Valid) :
    p.request.1.Valid ∧ cover p.request.1.ranges = cover p.ranges := by
  rcases p.request_cases with ⟨idx, start, len, hidx, -, hr⟩ | ⟨-, -, hr⟩ |
    ⟨-, victim, hv, splitAt, -, -, hlo, hhi, hr⟩
  · -- a free range becomes a claim
    obtain ⟨hlt, hget⟩ := List.getElem?_eq_some_iff.1 hidx
    have hperm : p.ranges.Perm
        ((start, len) :: ({ p with free := p.free.eraseIdx idx } : Plan).ranges) := by
      have := (List.getElem_cons_eraseIdx_perm hlt).symm
      rw [hget] at this
      exact this.append_right _
    have ha := h.apart.perm hperm
    have hv : ({ p with free := p.free.eraseIdx idx } : Plan).Valid :=
      ⟨(apart_cons.1 ha).2, h.nodup, h.fresh, h.active⟩
    rw [hr]
    refine ⟨hv.pushSlot ?_, ?_⟩
    · rwa [Nat.add_sub_cancel_left]
    · rw [pushSlot_ranges, Nat.add_sub_cancel_left, cover_perm hperm]
      exact cover_perm (List.perm_append_singleton _ _)
  · rw [hr]; exact ⟨h, rfl⟩
  · -- the victim keeps the front of its range, the thief gets the rest
    have hvs := (mem_activeSlots.1 hv).1
    obtain ⟨rest, hold, hnew⟩ := h.modify_ranges hvs
    have hnew := hnew (ClaimSlot.shrink splitAt) (h.active victim hvs)
    have hlen : victim.remaining = (splitAt - victim.cursor) + (victim.stop - splitAt) := by
      simp only [ClaimSlot.remaining, splitAlign, minSegment] at *; omega
    have hstart : splitAt = victim.cursor + (splitAt - victim.cursor) := by
      simp only [minSegment] at hlo; omega
    have hcut : Apart ((splitAt, victim.stop - splitAt) ::
        (p.modifySlot victim.id (ClaimSlot.shrink splitAt)).ranges) := by
      have ha := h.apart.perm hold
      rw [ClaimSlot.range, hlen] at ha
      have ha := (apart_split.2 ha).perm (List.Perm.swap _ _ _)
      rw [← hstart] at ha
      exact ha.perm (hnew.symm.cons _)
    rw [hr]
    refine ⟨(h.modifySlot victim.id (ClaimSlot.shrink splitAt) (fun _ => rfl) (fun _ => rfl)
      (apart_cons.1 hcut).2).pushSlot hcut, ?_⟩
    rw [pushSlot_ranges, cover_perm (List.perm_append_singleton _ _), cover_perm (hnew.cons _),
      cover_perm (List.Perm.swap _ _ _), cover_perm hold, ClaimSlot.range, ClaimSlot.range, hlen]
    have := cover_split victim.cursor (splitAt - victim.cursor) (victim.stop - splitAt) rest
    rw [← hstart] at this
    exact this

theorem Valid.request_slots (h : p.Valid) (hc : c ∈ p.slots) :
    ∃ d ∈ p.request.1.slots, d.id = c.id ∧ d.cursor = c.cursor ∧ d.stop ≤ c.stop := by
  rcases p.request_cases with ⟨idx, start, len, -, -, hr⟩ | ⟨-, -, hr⟩ |
    ⟨-, victim, hv, splitAt, -, -, -, hhi, hr⟩
  · rw [hr]
    exact ⟨c, mem_pushSlot.2 (Or.inl hc), rfl, rfl, le_rfl⟩
  · rw [hr]
    exact ⟨c, hc, rfl, rfl, le_rfl⟩
  · rw [hr]
    by_cases hid : c.id = victim.id
    · obtain rfl := h.eq_of_id_eq hc (mem_activeSlots.1 hv).1 hid
      refine ⟨c.shrink splitAt, mem_pushSlot.2 (Or.inl (mem_modifySlot.2 ⟨c, hc, ?_⟩)), rfl, rfl,
        ?_⟩
      · rw [if_pos rfl]
      · exact (Nat.le_add_right _ _).trans hhi
    · exact ⟨c, mem_pushSlot.2 (Or.inl (mem_modifySlot.2 ⟨c, hc, (if_neg hid).symm⟩)), rfl, rfl,
        le_rfl⟩

theorem release_eq_self {id : ℕ} (h : ∀ c ∈ p.slots, c.id ≠ id) : p.release id = p := by
  have hnone : (p.modifySlot id ClaimSlot.deactivate).slot? id = none := by
    refine List.find?_eq_none.2 fun d hd => ?_
    obtain ⟨d₀, hd₀, rfl⟩ := mem_modifySlot.1 hd
    rw [if_neg (h d₀ hd₀)]
    simpa using h d₀ hd₀
  rw [release, hnone]

/-- What releasing a claim leaves: the other claims, and its tail among the free ranges. -/
theorem release_eq {l₁ l₂ : List ClaimSlot} (hs : p.slots = l₁ ++ c :: l₂)
    (h₁ : ∀ d ∈ l₁, d.id ≠ c.id) (h₂ : ∀ d ∈ l₂, d.id ≠ c.id) :
    p.release c.id =
      { p with
        free := (p.returnRange c.cursor c.remaining).free
        slots := l₁ ++ l₂ } := by
  have hslots := modifySlot_split hs h₁ h₂ ClaimSlot.deactivate
  have hslot := slot?_split hs h₁
  have hfind := slot?_modifySlot (f := ClaimSlot.deactivate) (fun _ => rfl) hslot
  have hkeep : ∀ l : List ClaimSlot, (∀ d ∈ l, d.id ≠ c.id) →
      l.filter (fun d => d.id != c.id || d.active) = l := fun l hl =>
    List.filter_eq_self.2 fun d hd => by simp [hl d hd]
  have hfilter : (p.modifySlot c.id ClaimSlot.deactivate).slots.filter
      (fun d => d.id != c.id || d.active) = l₁ ++ l₂ := by
    rw [hslots, List.filter_append, hkeep l₁ h₁, List.filter_cons_of_neg (by
      simp [ClaimSlot.deactivate]), hkeep l₂ h₂]
  rw [← release_free hslot]
  simp only [release, hfind, hfilter]
  rfl

theorem Valid.release_spec (h : p.Valid) (id : ℕ) :
    (p.release id).Valid ∧ cover (p.release id).ranges = cover p.ranges := by
  by_cases hid : ∃ c ∈ p.slots, c.id = id
  · obtain ⟨c, hc, rfl⟩ := hid
    obtain ⟨l₁, l₂, hs, h₁, h₂⟩ := h.split hc
    have hsub : (l₁ ++ l₂).Sublist p.slots :=
      hs ▸ (List.Sublist.refl l₁).append (List.sublist_cons_self c l₂)
    have hact : ∀ d ∈ l₁ ++ l₂, d.active = true := fun d hd => h.active d (hsub.subset hd)
    have hold : p.ranges.Perm ((p.free ++ [c.range]) ++ (l₁ ++ l₂).map ClaimSlot.range) := by
      rw [ranges_of_active h.active, hs]
      simp only [List.map_append, List.map_cons, List.append_assoc, List.singleton_append]
      exact List.Perm.append_left _ List.perm_middle
    rw [release_eq hs h₁ h₂]
    obtain ⟨hfree, hslots, hdisj⟩ := apart_append.1 (h.apart.perm hold)
    -- the new free ranges cover the old ones and the tail of the claim
    have hcov : cover (p.returnRange c.cursor c.remaining).free = cover (p.free ++ [c.range]) := by
      rw [cover_returnRange, cover_append, cover_cons, cover_nil, Set.union_empty]
      rfl
    have hr : ({ p with
        free := (p.returnRange c.cursor c.remaining).free
        slots := l₁ ++ l₂ } : Plan).ranges =
        (p.returnRange c.cursor c.remaining).free ++ (l₁ ++ l₂).map ClaimSlot.range :=
      ranges_of_active hact
    refine ⟨⟨?_, h.nodup.sublist (hsub.map _), fun d hd => h.fresh d (hsub.subset hd), hact⟩, ?_⟩
    · rw [hr]
      exact apart_append.2
        ⟨apart_returnRange (Or.inr (apart_append.1 hfree).1) _, hslots, hcov ▸ hdisj⟩
    · rw [hr, cover_append, hcov, ← cover_append, cover_perm hold]
  · push Not at hid
    rw [release_eq_self hid]
    exact ⟨h, rfl⟩

theorem Valid.mem_release (h : p.Valid) {id : ℕ} :
    c ∈ (p.release id).slots ↔ c ∈ p.slots ∧ c.id ≠ id := by
  by_cases hex : ∃ d ∈ p.slots, d.id = id
  · obtain ⟨d, hd, rfl⟩ := hex
    obtain ⟨l₁, l₂, hs, h₁, h₂⟩ := h.split hd
    rw [release_eq hs h₁ h₂, hs]
    simp only [List.mem_append, List.mem_cons]
    constructor
    · rintro (hc | hc)
      · exact ⟨Or.inl hc, h₁ c hc⟩
      · exact ⟨Or.inr (Or.inr hc), h₂ c hc⟩
    · rintro ⟨hc | rfl | hc, hid⟩
      · exact Or.inl hc
      · exact absurd rfl hid
      · exact Or.inr hc
  · push Not at hex
    rw [release_eq_self hex]
    exact ⟨fun hc => ⟨hc, hex c hc⟩, fun hc => hc.1⟩

/-- Advancing a claim gives up the bytes passed over, and no others. -/
theorem Valid.advance_spec (h : p.Valid) (hc : c ∈ p.slots) (n : ℕ) :
    (p.modifySlot c.id (ClaimSlot.advance n)).Valid ∧
      cover p.ranges = span (c.cursor, min n c.remaining) ∪
        cover (p.modifySlot c.id (ClaimSlot.advance n)).ranges := by
  obtain ⟨rest, hold, hnew⟩ := h.modify_ranges hc
  have hnew := hnew (ClaimSlot.advance n) (h.active c hc)
  obtain ⟨hd, ha⟩ := apart_cons.1 (h.apart.perm hold)
  have hsub : span (ClaimSlot.advance n c).range ⊆ span c.range := fun b => by
    simp only [mem_span, ClaimSlot.range, ClaimSlot.remaining, ClaimSlot.advance]; omega
  refine ⟨h.modifySlot c.id _ (fun _ => rfl) (fun _ => rfl) ?_, ?_⟩
  · exact (apart_cons.2 ⟨hd.mono_left hsub, ha⟩).perm hnew.symm
  · rw [cover_perm hold, cover_perm hnew, cover_cons, cover_cons, ← Set.union_assoc]
    refine congrArg (· ∪ cover rest) (Set.ext ?_)
    intro b
    simp only [mem_span, Set.mem_union, ClaimSlot.range, ClaimSlot.remaining, ClaimSlot.advance]
    omega

end Plan

/-! ### The planner under its workers -/

/-- A plan in use: the chunks whose bytes were handed to the writer before the cursor moved, and
all ranges handed over so far. -/
structure PlanRun where
  plan : Plan
  /-- The length of the chunk in flight, for each slot. -/
  pending : ℕ → Option ℕ
  handed : List (ℕ × ℕ)

/-- What can happen to a plan. -/
inductive PlanEvent
  | seed (n : ℕ)
  | request
  /-- The holder of a claim gives it back. -/
  | release (id : ℕ)
  /-- The holder reads its cursor and end and hands `n` bytes to the writer. -/
  | hand (id n : ℕ)
  /-- The holder advances its cursor past the bytes it handed over. -/
  | advance (id : ℕ)

namespace PlanRun

/-- A fresh plan over the gaps of `completed`. -/
def init (total : Option ℕ) (completed : RangeSet) : PlanRun :=
  ⟨Plan.new total completed, fun _ => none, []⟩

/-- One step.  A holder with a chunk in flight does nothing before it has advanced. -/
def step (s : PlanRun) : PlanEvent → Option PlanRun
  | .seed n => some { s with plan := s.plan.seed n }
  | .request => some { s with plan := s.plan.request.1 }
  | .release id =>
    match s.plan.slot? id, s.pending id with
    | some _, none => some { s with plan := s.plan.release id }
    | _, _ => none
  | .hand id n =>
    match s.plan.slot? id, s.pending id with
    | some c, none =>
      if n ≤ c.stop - c.cursor then
        some { s with
          pending := Function.update s.pending id (some n)
          handed := s.handed ++ [(c.cursor, n)] }
      else none
    | _, _ => none
  | .advance id =>
    (s.pending id).map fun n =>
      { s with
        plan := s.plan.modifySlot id (ClaimSlot.advance n)
        pending := Function.update s.pending id none }

end PlanRun

/-- The planner as an event machine. -/
def planMachine : Machine PlanRun PlanEvent := ⟨PlanRun.step⟩

/-- The invariant of a plan in use, `work` being the bytes it was built to fetch. -/
structure Accounted (work : Set ℕ) (s : PlanRun) : Prop where
  valid : s.plan.Valid
  /-- Every byte of the work is handed over or open, and nothing else is. -/
  work_eq : cover s.handed ∪ cover s.plan.ranges = work
  /-- A chunk in flight starts at the cursor of its claim, and its bytes were handed over. -/
  pending : ∀ id n, s.pending id = some n →
    ∃ c ∈ s.plan.slots, c.id = id ∧ span (c.cursor, n) ⊆ cover s.handed

namespace Accounted

variable {work : Set ℕ} {s : PlanRun}

theorem init (total : Option ℕ) {completed : RangeSet} (hc : completed.Ordered) :
    Accounted (cover (Plan.new total completed).ranges) (PlanRun.init total completed) where
  valid := Plan.valid_new total hc
  work_eq := by simp [PlanRun.init]
  pending := by simp [PlanRun.init]

/-- A planner operation that keeps the open bytes and the cursors of the claims in use. -/
theorem replan (h : Accounted work s) {p : Plan} (hp : p.Valid)
    (hcov : cover p.ranges = cover s.plan.ranges)
    (hslots : ∀ c ∈ s.plan.slots, ∀ n, s.pending c.id = some n →
      ∃ d ∈ p.slots, d.id = c.id ∧ d.cursor = c.cursor) :
    Accounted work { s with plan := p } where
  valid := hp
  work_eq := hcov.symm ▸ h.work_eq
  pending := by
    intro id n hn
    obtain ⟨c, hc, rfl, hsub⟩ := h.pending id n hn
    obtain ⟨d, hd, hid, hcur⟩ := hslots c hc n hn
    exact ⟨d, hd, hid, hcur.symm ▸ hsub⟩

theorem hand (h : Accounted work s) {c : ClaimSlot} (hc : c ∈ s.plan.slots) {n : ℕ}
    (hn : n ≤ c.remaining) :
    Accounted work { s with
      pending := Function.update s.pending c.id (some n)
      handed := s.handed ++ [(c.cursor, n)] } where
  valid := h.valid
  work_eq := by
    have hsub : span (c.cursor, n) ⊆ cover s.plan.ranges := by
      intro b hb
      have hmem : c ∈ s.plan.activeSlots := Plan.mem_activeSlots.2 ⟨hc, h.valid.active c hc⟩
      refine mem_cover_of_mem (p := c.range)
        (List.mem_append_right _ (List.mem_map_of_mem hmem)) hb.1 ?_
      have := hb.2
      simp only [ClaimSlot.range] at this ⊢
      omega
    rw [← h.work_eq, cover_append, cover_cons, cover_nil, Set.union_empty, Set.union_assoc,
      Set.union_eq_self_of_subset_left hsub]
  pending := by
    intro id m hm
    change Function.update s.pending c.id (some n) id = some m at hm
    rw [cover_append]
    by_cases hid : id = c.id
    · subst hid
      rw [Function.update_self] at hm
      obtain rfl := Option.some.inj hm
      refine ⟨c, hc, rfl, ?_⟩
      rw [cover_cons, cover_nil, Set.union_empty]
      exact Set.subset_union_right
    · rw [Function.update_of_ne hid] at hm
      obtain ⟨d, hd, hdid, hsub⟩ := h.pending id m hm
      exact ⟨d, hd, hdid, hsub.trans Set.subset_union_left⟩

theorem advance (h : Accounted work s) {id n : ℕ} (hn : s.pending id = some n) :
    Accounted work { s with
      plan := s.plan.modifySlot id (ClaimSlot.advance n)
      pending := Function.update s.pending id none } := by
  obtain ⟨c, hc, rfl, hsub⟩ := h.pending id n hn
  obtain ⟨hv, hcov⟩ := h.valid.advance_spec hc n
  refine ⟨hv, ?_, ?_⟩
  · -- the bytes passed over were handed over before
    have hpass : span (c.cursor, min n c.remaining) ⊆ cover s.handed := fun b hb =>
      hsub ⟨hb.1, hb.2.trans_le (Nat.add_le_add_left (min_le_left _ _) _)⟩
    rw [← h.work_eq, hcov, ← Set.union_assoc, Set.union_eq_self_of_subset_right hpass]
  · intro id' m hm
    change Function.update s.pending c.id none id' = some m at hm
    by_cases hid : id' = c.id
    · subst hid
      simp at hm
    · rw [Function.update_of_ne hid] at hm
      obtain ⟨d, hd, rfl, hdsub⟩ := h.pending id' m hm
      exact ⟨d, Plan.mem_modifySlot.2 ⟨d, hd, (if_neg hid).symm⟩, rfl, hdsub⟩

/-- **Every step keeps the accounts.** -/
theorem step (h : Accounted work s) {e : PlanEvent} {s' : PlanRun} (hs : s.step e = some s') :
    Accounted work s' := by
  cases e with
  | seed n =>
    obtain rfl := Option.some.inj hs
    refine h.replan (h.valid.seed n) (h.valid.cover_seed n) fun c hc _ _ => ⟨c, ?_, rfl, rfl⟩
    unfold Plan.seed
    split_ifs <;> exact hc
  | request =>
    obtain rfl := Option.some.inj hs
    exact h.replan h.valid.request_spec.1 h.valid.request_spec.2
      fun c hc _ _ => by
        obtain ⟨d, hd, hid, hcur, -⟩ := h.valid.request_slots hc
        exact ⟨d, hd, hid, hcur⟩
  | release id =>
    simp only [PlanRun.step] at hs
    split at hs
    · rename_i hslot hpend
      obtain rfl := Option.some.inj hs
      refine h.replan (h.valid.release_spec id).1 (h.valid.release_spec id).2 ?_
      intro c hc n hn
      have hid : c.id ≠ id := fun hid => by rw [hid, hpend] at hn; simp at hn
      exact ⟨c, h.valid.mem_release.2 ⟨hc, hid⟩, rfl, rfl⟩
    · simp at hs
  | hand id n =>
    simp only [PlanRun.step] at hs
    split at hs
    · rename_i c hslot hpend
      split_ifs at hs with hle
      obtain rfl := Option.some.inj hs
      obtain ⟨hc, rfl⟩ := Plan.mem_of_slot? hslot
      exact h.hand hc hle
    · simp at hs
  | advance id =>
    obtain ⟨n, hn, rfl⟩ := Option.map_eq_some_iff.1 hs
    exact h.advance hn

theorem run (h : Accounted work s) {s' : PlanRun} (hr : planMachine.Reaches s s') :
    Accounted work s' :=
  hr.invariant h fun _ _ _ ih _ hst => ih.step hst

end Accounted

/-- **Exact work accounting.**  However requests, steals, releases and chunks interleave, the free
ranges and the ranges of the live claims are disjoint parts of the file, they account for every
byte that was neither done before nor handed over, and `outstanding` is their size. -/
theorem work_accounted {t : ℕ} {completed : RangeSet} (hc : completed.Canonical) {s : PlanRun}
    (h : planMachine.Reaches (PlanRun.init (some t) completed) s) :
    Apart s.plan.ranges ∧ (∀ q ∈ s.plan.ranges, span q ⊆ Set.Ico 0 t) ∧
      Set.Ico 0 t ⊆ completed.covered ∪ cover s.handed ∪ cover s.plan.ranges ∧
      s.plan.outstanding = (cover s.plan.ranges).ncard := by
  have hacc := (Accounted.init (some t) hc.ordered).run h
  have hwork := hacc.work_eq
  rw [Plan.cover_ranges_new t hc.ordered] at hwork
  refine ⟨hacc.valid.apart, ?_, ?_, hacc.valid.outstanding_eq⟩
  · intro q hq b hb
    have : b ∈ Set.Iio t \ completed.covered :=
      hwork ▸ Or.inr (mem_cover_of_mem hq hb.1 hb.2)
    exact ⟨Nat.zero_le b, this.1⟩
  · intro b hb
    by_cases hdone : b ∈ completed.covered
    · exact Or.inl (Or.inl hdone)
    · have : b ∈ cover s.handed ∪ cover s.plan.ranges := hwork ▸ ⟨hb.2, hdone⟩
      rcases this with hb | hb
      · exact Or.inl (Or.inr hb)
      · exact Or.inr hb

/-- Two workers on a file of 16 MiB: the second steals while the first has a chunk in flight
that reaches past the split, then the first gives its claim back. -/
theorem work_accounted_steal :
    ∃ s, planMachine.exec (PlanRun.init (some 16777216) ⟨[(0, 1000)]⟩)
        [.seed 1, .request, .hand 0 10000000, .request, .advance 0, .release 0, .hand 1 5] =
          some s ∧
      Set.Ico 0 16777216 ⊆
        (⟨[(0, 1000)]⟩ : RangeSet).covered ∪ cover s.handed ∪ cover s.plan.ranges ∧
      s.plan.outstanding = (cover s.plan.ranges).ncard := by
  obtain ⟨s, hs⟩ := Option.isSome_iff_exists.1 (show (planMachine.exec
    (PlanRun.init (some 16777216) ⟨[(0, 1000)]⟩) [.seed 1, .request, .hand 0 10000000, .request,
      .advance 0, .release 0, .hand 1 5]).isSome = true by decide)
  exact ⟨s, hs, (work_accounted (by decide) (Machine.reaches_of_exec hs)).2.2⟩

end SwiftLoad
