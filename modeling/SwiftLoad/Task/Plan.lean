import SwiftLoad.Util.Intervals

/-!
# Work allocation: claims, shrinking, and stealing

`task/plan.rs`.  A plan holds the unclaimed gaps and the live claims.  Each worker owns one claim
`[cursor, stop)` at a time and advances its cursor; when nothing is unclaimed, `Plan.request`
lowers the `stop` of the largest live claim and hands out the tail.

The source shares a claim between its worker and the plan through an `Arc` with atomic fields.
Here the plan owns the slot record and workers refer to it by its `id`, which plays the part of
the `Arc`'s address: ids are never used twice.

`Plan.request_cases` lists everything a request can do; the other operations have one
specification lemma each.
-/

namespace SwiftLoad

open Ranges

/-- Steals are rounded to this boundary. -/
def splitAlign : ℕ := 1024 * 1024

/-- A worker's mutable range; `stop` is the source's `end`. -/
structure ClaimSlot where
  id : ℕ
  cursor : ℕ
  stop : ℕ
  active : Bool
deriving DecidableEq, Repr

namespace ClaimSlot

/-- Bytes still to fetch. -/
def remaining (c : ClaimSlot) : ℕ := c.stop - c.cursor

/-- `ClaimSlot::is_done`. -/
def isDone (c : ClaimSlot) : Bool := decide (c.stop ≤ c.cursor)

/-- `ClaimSlot::advance`: record progress. -/
def advance (n : ℕ) (c : ClaimSlot) : ClaimSlot := { c with cursor := c.cursor + n }

/-- `ClaimSlot::deactivate`. -/
def deactivate (c : ClaimSlot) : ClaimSlot := { c with active := false }

/-- Lower the end of a claim. -/
def shrink (stop : ℕ) (c : ClaimSlot) : ClaimSlot := { c with stop := stop }

/-- The unfetched range of a claim as `(start, len)`. -/
def range (c : ClaimSlot) : ℕ × ℕ := (c.cursor, c.remaining)

end ClaimSlot

/-- Outcome of asking for work. -/
inductive Grant
  /-- A range to fetch. -/
  | claim (slot : ClaimSlot)
  /-- Nothing left to hand out; the worker should retire. -/
  | exhausted
deriving DecidableEq, Repr

/-- `div_ceil` to the split boundary. -/
def alignUp (v : ℕ) : ℕ := (v + splitAlign - 1) / splitAlign * splitAlign

/-- The loop of `merge_free`, with the last range pushed so far. -/
def mergeFreeFrom : ℕ × ℕ → List (ℕ × ℕ) → List (ℕ × ℕ)
  | last, [] => [last]
  | (ps, pl), (s, l) :: rest =>
    if s ≤ ps + pl then mergeFreeFrom (ps, max (ps + pl) (s + l) - ps) rest
    else (ps, pl) :: mergeFreeFrom (s, l) rest

/-- `merge_free`: merge overlapping and touching neighbours of a sorted list. -/
def mergeFree : List (ℕ × ℕ) → List (ℕ × ℕ)
  | [] => []
  | p :: rest => mergeFreeFrom p rest

/-- The plan: total size, unclaimed gaps, live claims, and the next unused slot id. -/
structure Plan where
  total : Option ℕ
  free : List (ℕ × ℕ)
  slots : List ClaimSlot
  nextId : ℕ
deriving DecidableEq, Repr

namespace Plan

/-- `Plan::new`: plan over the gaps in `completed`, never over the whole file. -/
def new (total : Option ℕ) (completed : RangeSet) : Plan where
  total := total
  free := match total with
    | some t => completed.gapsIn 0 t
    | none => [(completed.endPos, u64Max - completed.endPos)]
  slots := []
  nextId := 0

/-- The loop of `seed`: `fuel` is how many pieces are still missing. -/
def seedLoop : ℕ → List (ℕ × ℕ) → List (ℕ × ℕ)
  | 0, free => free
  | fuel + 1, free =>
    match maxByKey (fun q => q.1.2) free.zipIdx with
    | none => free
    | some ((start, len), idx) =>
      if len < minSegment * 2 then free
      else
        let half := alignUp (len / 2)
        if half = 0 ∨ len ≤ half then free
        else
          seedLoop fuel (sortByStart (free.set idx (start, half) ++ [(start + half, len - half)]))

/-- `Plan::seed`: split the outstanding work into up to `n` initial claims.  Every round of the
source's `while free.len() < n` adds one piece, so it makes at most `n - free.length` rounds. -/
def seed (n : ℕ) (p : Plan) : Plan :=
  if n ≤ 1 ∨ n ≤ p.free.length then p
  else { p with free := seedLoop (n - p.free.length) p.free }

/-- The live claims. -/
def activeSlots (p : Plan) : List ClaimSlot := p.slots.filter (·.active)

/-- `Plan::unclaimed`: the length of the free list. -/
def unclaimed (p : Plan) : ℕ := size p.free

/-- `Plan::outstanding`: unclaimed bytes plus what live claims hold. -/
def outstanding (p : Plan) : ℕ := size p.free + (p.activeSlots.map ClaimSlot.remaining).sum

/-- `Plan::useful_workers`. -/
def usefulWorkers (p : Plan) : ℕ := max (p.outstanding / minSegment) 1

/-- Apply `f` to the slot with this id. -/
def modifySlot (id : ℕ) (f : ClaimSlot → ClaimSlot) (p : Plan) : Plan :=
  { p with slots := p.slots.map fun c => if c.id = id then f c else c }

/-- Add a claim for `[start, stop)`. -/
def pushSlot (start stop : ℕ) (p : Plan) : Plan :=
  { p with slots := p.slots ++ [⟨p.nextId, start, stop, true⟩], nextId := p.nextId + 1 }

/-- The slot with this id. -/
def slot? (p : Plan) (id : ℕ) : Option ClaimSlot := p.slots.find? fun c => c.id == id

/-- The second half of `Plan::request`: steal half of the largest live claim. -/
def steal (p : Plan) : Plan × Grant :=
  match maxByKey ClaimSlot.remaining p.activeSlots with
  | none => (p, .exhausted)
  | some victim =>
    -- not worth splitting: the victim would be left with a scrap
    if victim.remaining < minSegment * 2 then (p, .exhausted)
    else
      let splitAt := alignUp (victim.cursor + victim.remaining / 2)
      if splitAt ≤ victim.cursor ∨ victim.stop ≤ splitAt then (p, .exhausted)
      else
        ((p.modifySlot victim.id (ClaimSlot.shrink splitAt)).pushSlot splitAt victim.stop,
          .claim ⟨p.nextId, splitAt, victim.stop, true⟩)

/-- `Plan::request`: an unclaimed gap if one exists, otherwise a steal. -/
def request (p : Plan) : Plan × Grant :=
  match maxByKey (fun q => q.1.2) p.free.zipIdx with
  | some ((start, len), idx) =>
    ({ p with free := p.free.eraseIdx idx }.pushSlot start (start + len),
      .claim ⟨p.nextId, start, start + len, true⟩)
  | none => p.steal

/-- `Plan::release`: give back a claim; any unfetched tail returns to the free list. -/
def release (id : ℕ) (p : Plan) : Plan :=
  match (p.modifySlot id ClaimSlot.deactivate).slot? id with
  | none => p
  | some c =>
    { p.modifySlot id ClaimSlot.deactivate with
      free :=
        if c.cursor < c.stop then
          mergeFree (sortByStart (p.free ++ [(c.cursor, c.stop - c.cursor)]))
        else p.free
      slots := (p.modifySlot id ClaimSlot.deactivate).slots.filter fun c => c.id != id || c.active }

/-- `Plan::return_range`: return a range to the pool after a failure. -/
def returnRange (start len : ℕ) (p : Plan) : Plan :=
  if len = 0 then p
  else { p with free := mergeFree (sortByStart (p.free ++ [(start, len)])) }

end Plan

/-! ### Alignment and merging -/

theorem le_alignUp (v : ℕ) : v ≤ alignUp v := by unfold alignUp splitAlign; omega

theorem alignUp_lt (v : ℕ) : alignUp v < v + splitAlign := by unfold alignUp splitAlign; omega

theorem mergeFreeFrom_spec (last : ℕ × ℕ) (l : List (ℕ × ℕ)) (hl : l.Pairwise startLe)
    (hlast : ∀ q ∈ l, last.1 ≤ q.1) :
    Separated (mergeFreeFrom last l) ∧ (∀ q ∈ mergeFreeFrom last l, last.1 ≤ q.1) ∧
      cover (mergeFreeFrom last l) = cover (last :: l) := by
  induction l generalizing last with
  | nil => simp [mergeFreeFrom, Separated]
  | cons q l ih =>
    obtain ⟨ps, pl⟩ := last
    obtain ⟨s, n⟩ := q
    obtain ⟨hq, hl⟩ := List.pairwise_cons.1 hl
    have hps : ps ≤ s := hlast _ List.mem_cons_self
    simp only [mergeFreeFrom]
    split_ifs with hc
    · -- the range touches the last one, and the two become one
      obtain ⟨h₁, h₂, h₃⟩ := ih (ps, max (ps + pl) (s + n) - ps) hl
        fun q' hq' => hlast q' (List.mem_cons_of_mem _ hq')
      refine ⟨h₁, h₂, h₃.trans ?_⟩
      ext b
      simp only [mem_cover_cons, ← or_assoc]
      refine or_congr_left ?_
      omega
    · obtain ⟨h₁, h₂, h₃⟩ := ih (s, n) hl hq
      refine ⟨List.pairwise_cons.2 ⟨?_, h₁⟩, ?_, ?_⟩
      · intro q' hq'
        have := h₂ q' hq'
        simp only at this ⊢; omega
      · intro q' hq'
        rcases List.mem_cons.1 hq' with rfl | hq'
        · exact le_rfl
        · exact hps.trans (h₂ q' hq')
      · rw [cover_cons, h₃, cover_cons (ps, pl)]

/-- `merge_free` of a sorted list covers the same bytes without touching ranges. -/
theorem mergeFree_spec {l : List (ℕ × ℕ)} (hl : l.Pairwise startLe) :
    Separated (mergeFree l) ∧ cover (mergeFree l) = cover l := by
  cases l with
  | nil => exact ⟨List.Pairwise.nil, rfl⟩
  | cons p l =>
    obtain ⟨hp, hl⟩ := List.pairwise_cons.1 hl
    obtain ⟨h₁, -, h₃⟩ := mergeFreeFrom_spec p l hl hp
    exact ⟨h₁, h₃⟩

namespace Plan

variable {p : Plan} {c : ClaimSlot} {id : ℕ}

@[simp] theorem seed_slots (n : ℕ) (p : Plan) : (p.seed n).slots = p.slots := by
  unfold seed
  split_ifs <;> rfl

@[simp] theorem modifySlot_free (id : ℕ) (f : ClaimSlot → ClaimSlot) (p : Plan) :
    (p.modifySlot id f).free = p.free := rfl

@[simp] theorem modifySlot_total (id : ℕ) (f : ClaimSlot → ClaimSlot) (p : Plan) :
    (p.modifySlot id f).total = p.total := rfl

@[simp] theorem modifySlot_nextId (id : ℕ) (f : ClaimSlot → ClaimSlot) (p : Plan) :
    (p.modifySlot id f).nextId = p.nextId := rfl

@[simp] theorem pushSlot_free (start stop : ℕ) (p : Plan) :
    (p.pushSlot start stop).free = p.free := rfl

@[simp] theorem pushSlot_total (start stop : ℕ) (p : Plan) :
    (p.pushSlot start stop).total = p.total := rfl

@[simp] theorem pushSlot_nextId (start stop : ℕ) (p : Plan) :
    (p.pushSlot start stop).nextId = p.nextId + 1 := rfl

@[simp] theorem pushSlot_slots (start stop : ℕ) (p : Plan) :
    (p.pushSlot start stop).slots = p.slots ++ [⟨p.nextId, start, stop, true⟩] := rfl

@[simp] theorem mem_modifySlot {f : ClaimSlot → ClaimSlot} :
    c ∈ (p.modifySlot id f).slots ↔
      ∃ c₀ ∈ p.slots, c = if c₀.id = id then f c₀ else c₀ := by
  simp [modifySlot, eq_comm]

theorem mem_pushSlot {start stop : ℕ} :
    c ∈ (p.pushSlot start stop).slots ↔ c ∈ p.slots ∨ c = ⟨p.nextId, start, stop, true⟩ := by
  simp

theorem mem_of_slot? (h : p.slot? id = some c) : c ∈ p.slots ∧ c.id = id := by
  have := List.find?_some h
  exact ⟨List.mem_of_find?_eq_some h, by simpa using this⟩

theorem slot?_modifySlot {f : ClaimSlot → ClaimSlot}
    (hf : ∀ d, (f d).id = d.id) (h : p.slot? id = some c) :
    (p.modifySlot id f).slot? id = some (f c) := by
  have hpred : ((fun c : ClaimSlot => c.id == id) ∘ fun c => if c.id = id then f c else c) =
      fun c => c.id == id := by
    funext d
    simp only [Function.comp]
    split_ifs
    · rw [hf]
    · rfl
  have hfind : p.slots.find? (fun c => c.id == id) = some c := h
  rw [slot?, modifySlot, List.find?_map, hpred, hfind, Option.map_some, if_pos (mem_of_slot? h).2]

theorem mem_activeSlots : c ∈ p.activeSlots ↔ c ∈ p.slots ∧ c.active = true := List.mem_filter

/-! ### Returning a range -/

variable {start len : ℕ}

@[simp] theorem returnRange_zero (start : ℕ) (p : Plan) : p.returnRange start 0 = p := rfl

/-- The pool gains the bytes of the range, and no other. -/
theorem cover_returnRange (start len : ℕ) (p : Plan) :
    cover (p.returnRange start len).free = cover p.free ∪ span (start, len) := by
  rcases Nat.eq_zero_or_pos len with rfl | hlen
  · rw [returnRange_zero, span_zero, Set.union_empty]
  · rw [returnRange, if_neg hlen.ne', (mergeFree_spec (sortByStart_pairwise _)).2,
      cover_perm (sortByStart_perm _), cover_append, cover_cons, cover_nil, Set.union_empty]

theorem apart_returnRange (h : 0 < len ∨ Apart p.free) (start : ℕ) :
    Apart (p.returnRange start len).free := by
  rcases Nat.eq_zero_or_pos len with rfl | hlen
  · exact h.resolve_left (lt_irrefl 0)
  · rw [returnRange, if_neg hlen.ne']
    exact (mergeFree_spec (sortByStart_pairwise _)).1.ordered.apart

theorem release_free (h : p.slot? id = some c) :
    (p.release id).free = (p.returnRange c.cursor c.remaining).free := by
  have hslot := slot?_modifySlot (f := ClaimSlot.deactivate) (fun _ => rfl) h
  by_cases hc : c.cursor < c.stop
  · have hlen : c.stop - c.cursor ≠ 0 := by omega
    simp [release, hslot, returnRange, ClaimSlot.deactivate, ClaimSlot.remaining, hc, hlen]
  · have hlen : c.stop - c.cursor = 0 := by omega
    simp [release, hslot, returnRange, ClaimSlot.deactivate, ClaimSlot.remaining, hc, hlen]

/-! ### What a request can do -/

/-- Everything `Plan::request` can do. -/
theorem request_cases (p : Plan) :
    (∃ idx start len, p.free[idx]? = some (start, len) ∧ (∀ q ∈ p.free, q.2 ≤ len) ∧
      p.request = ({ p with free := p.free.eraseIdx idx }.pushSlot start (start + len),
        .claim ⟨p.nextId, start, start + len, true⟩)) ∨
    (p.free = [] ∧ (∀ c ∈ p.activeSlots, c.remaining < minSegment * 2) ∧
      p.request = (p, .exhausted)) ∨
    (p.free = [] ∧ ∃ victim ∈ p.activeSlots, ∃ splitAt,
      (∀ c ∈ p.activeSlots, c.remaining ≤ victim.remaining) ∧
      minSegment * 2 ≤ victim.remaining ∧ victim.cursor + minSegment ≤ splitAt ∧
      splitAt + splitAlign ≤ victim.stop ∧
      p.request = ((p.modifySlot victim.id (ClaimSlot.shrink splitAt)).pushSlot splitAt victim.stop,
        .claim ⟨p.nextId, splitAt, victim.stop, true⟩)) := by
  unfold request
  cases hm : maxByKey (fun q => q.1.2) p.free.zipIdx with
  | some q =>
    obtain ⟨⟨start, len⟩, idx⟩ := q
    refine Or.inl ⟨idx, start, len, List.mem_zipIdx_iff_getElem?.1 (mem_of_maxByKey hm),
      ?_, rfl⟩
    intro q hq
    obtain ⟨i, hi, rfl⟩ := List.getElem_of_mem hq
    exact le_maxByKey hm (x := (p.free[i], i))
      (List.mem_zipIdx_iff_getElem?.2 (List.getElem?_eq_getElem hi))
  | none =>
    have hfree : p.free = [] := by simpa using maxByKey_eq_none.1 hm
    refine Or.inr ?_
    unfold steal
    cases hv : maxByKey ClaimSlot.remaining p.activeSlots with
    | none =>
      refine Or.inl ⟨hfree, ?_, rfl⟩
      simp [maxByKey_eq_none.1 hv]
    | some victim =>
      have hmax : ∀ c ∈ p.activeSlots, c.remaining ≤ victim.remaining :=
        fun c hc => le_maxByKey hv hc
      have hle := le_alignUp (victim.cursor + victim.remaining / 2)
      have hlt := alignUp_lt (victim.cursor + victim.remaining / 2)
      simp only
      split_ifs with h₁ h₂
      · exact Or.inl ⟨hfree, fun c hc => (hmax c hc).trans_lt h₁, rfl⟩
      · -- a claim this large always has an aligned point inside
        exfalso
        simp only [ClaimSlot.remaining, minSegment, splitAlign] at h₁ h₂ hle hlt
        omega
      · refine Or.inr ⟨hfree, victim, mem_of_maxByKey hv, _, hmax, by omega, ?_, ?_, rfl⟩
        · simp only [ClaimSlot.remaining, minSegment] at h₁ hle ⊢
          omega
        · simp only [ClaimSlot.remaining, minSegment, splitAlign] at h₁ hlt ⊢
          omega

/-- A request that grants nothing leaves the plan alone. -/
theorem request_exhausted {q : Plan} (h : p.request = (q, .exhausted)) : q = p := by
  rcases p.request_cases with ⟨_, _, _, _, _, hr⟩ | ⟨_, _, hr⟩ | ⟨_, _, _, _, _, _, _, _, hr⟩ <;>
    rw [hr] at h <;> simp only [Prod.mk.injEq] at h
  · exact absurd h.2 (by simp)
  · exact h.1.symm
  · exact absurd h.2 (by simp)

/-- The claim a request grants is new, and the other claims were there before. -/
theorem request_claim {q : Plan} (h : p.request = (q, .claim c)) :
    c.id = p.nextId ∧ c ∈ q.slots ∧ ∀ d ∈ q.slots, d.id = c.id ∨ ∃ d₀ ∈ p.slots, d₀.id = d.id := by
  rcases p.request_cases with ⟨idx, start, len, -, -, hr⟩ | ⟨-, -, hr⟩ |
    ⟨-, victim, -, splitAt, -, -, -, -, hr⟩ <;> rw [hr] at h
  · obtain ⟨rfl, hg⟩ := Prod.mk.inj h
    obtain rfl := Grant.claim.inj hg
    refine ⟨rfl, mem_pushSlot.2 (Or.inr rfl), ?_⟩
    intro d hd
    rcases mem_pushSlot.1 hd with hd | rfl
    · exact Or.inr ⟨d, hd, rfl⟩
    · exact Or.inl rfl
  · exact absurd (Prod.mk.inj h).2 (by simp)
  · obtain ⟨rfl, hg⟩ := Prod.mk.inj h
    obtain rfl := Grant.claim.inj hg
    refine ⟨rfl, mem_pushSlot.2 (Or.inr rfl), ?_⟩
    intro d hd
    rcases mem_pushSlot.1 hd with hd | rfl
    · obtain ⟨d₀, hd₀, rfl⟩ := mem_modifySlot.1 hd
      refine Or.inr ⟨d₀, hd₀, ?_⟩
      split_ifs <;> rfl
    · exact Or.inl rfl

end Plan

end SwiftLoad
