import SwiftLoad.Range.Basic
import SwiftLoad.Config

/-!
# `RangeSet`: which byte ranges are on disk

`util/intervals.rs` keeps a sorted vector of `(start, len)` spans.  `RangeSet.covered` is the set
of bytes it stands for.  The operations are translated literally; the theorems say what each
does to the covered set, for sets whose spans are sorted and disjoint (`RangeSet.Ordered`), and
that they keep it so.  The stronger `RangeSet.Canonical` (no two spans touch) is the invariant
the source documents; a decoded set need not satisfy it, so the results here do without, but for
`containsAll`, which does not look past the end of a span.
-/

namespace SwiftLoad

open Ranges

/-- A set of byte ranges, stored as `(start, len)` pairs. -/
structure RangeSet where
  spans : List (ℕ × ℕ)
deriving DecidableEq, Repr

namespace RangeSet

variable {r : RangeSet} {b : ℕ}

/-- The bytes of the set. -/
def covered (r : RangeSet) : Set ℕ := cover r.spans

/-- Sorted, disjoint, non-empty spans. -/
def Ordered (r : RangeSet) : Prop := Ranges.Ordered r.spans ∧ Positive r.spans

/-- Sorted, disjoint, non-adjacent, non-empty spans. -/
def Canonical (r : RangeSet) : Prop := Separated r.spans ∧ Positive r.spans

instance : DecidablePred Ordered := fun _ => inferInstanceAs (Decidable (_ ∧ _))

instance : DecidablePred Canonical := fun _ => inferInstanceAs (Decidable (_ ∧ _))

theorem Canonical.ordered (h : r.Canonical) : r.Ordered := ⟨h.1.ordered, h.2⟩

/-- `RangeSet::new`. -/
def new : RangeSet := ⟨[]⟩

/-- `RangeSet::is_empty`. -/
def isEmpty (r : RangeSet) : Bool := r.spans.isEmpty

/-- `RangeSet::total`: the number of bytes covered. -/
def total (r : RangeSet) : ℕ := size r.spans

/-- `RangeSet::end`: one past the highest covered byte, or 0 when empty. -/
def endPos (r : RangeSet) : ℕ := r.spans.getLast?.elim 0 fun p => p.1 + p.2

/-- `RangeSet::insert`: add `[start, start + len)`, merging with the spans it overlaps or
touches. -/
def insert (r : RangeSet) (start len : ℕ) : RangeSet :=
  if len = 0 then r else
    let stop := satAdd start len
    -- the first span that could touch the new one, and the first one strictly after it
    let lo := partitionPoint (fun p => decide (p.1 + p.2 < start)) r.spans
    let hi := partitionPoint (fun p => decide (p.1 ≤ stop)) r.spans
    if hi ≤ lo then ⟨r.spans.take lo ++ (start, len) :: r.spans.drop lo⟩
    else
      let first := r.spans.getD lo (0, 0)
      let last := r.spans.getD (hi - 1) (0, 0)
      let mergedStart := min start first.1
      let mergedEnd := max stop (last.1 + last.2)
      ⟨r.spans.take lo ++ (mergedStart, mergedEnd - mergedStart) :: r.spans.drop hi⟩

/-- `RangeSet::contains_all`: every byte of `[start, stop)` is present. -/
def containsAll (r : RangeSet) (start stop : ℕ) : Bool :=
  decide (stop ≤ start) ||
    r.spans.any fun p => decide (p.1 ≤ start ∧ start + (stop - start) ≤ p.1 + p.2)

/-- The loop of `gaps_in` with its cursor. -/
def gapsFrom (stop : ℕ) : ℕ → List (ℕ × ℕ) → List (ℕ × ℕ)
  | cursor, [] => if cursor < stop then [(cursor, stop - cursor)] else []
  | cursor, (s, l) :: rest =>
    if s + l ≤ cursor then gapsFrom stop cursor rest
    else if stop ≤ s then if cursor < stop then [(cursor, stop - cursor)] else []
    else
      let gap := if cursor < s then [(cursor, min s stop - cursor)] else []
      if stop ≤ max cursor (s + l) then gap else gap ++ gapsFrom stop (max cursor (s + l)) rest

/-- `RangeSet::gaps_in`: the gaps within `[start, stop)`, in ascending order. -/
def gapsIn (r : RangeSet) (start stop : ℕ) : List (ℕ × ℕ) :=
  if stop ≤ start then [] else gapsFrom stop start r.spans

/-- `RangeSet::truncate_to`: drop everything at or beyond `limit`. -/
def truncateTo (r : RangeSet) (limit : ℕ) : RangeSet :=
  ⟨r.spans.filterMap fun p =>
    if limit ≤ p.1 then none
    else if limit < p.1 + p.2 then some (p.1, limit - p.1) else some p⟩

/-- `RangeSet::rewind_tails`: give back the last `margin` bytes of every span. -/
def rewindTails (r : RangeSet) (margin : ℕ) : RangeSet :=
  if margin = 0 then r else
    ⟨r.spans.filterMap fun p => if p.2 ≤ margin then none else some (p.1, p.2 - margin)⟩

/-! ### Totals and ends -/

@[simp] theorem covered_new : new.covered = ∅ := cover_nil

theorem ordered_new : new.Ordered := ⟨ordered_nil, by simp [new, Positive]⟩

theorem ncard_covered (h : r.Ordered) : r.covered.ncard = r.total :=
  ncard_cover h.1.apart

theorem isEmpty_iff (h : r.Ordered) : r.isEmpty = true ↔ r.covered = ∅ := by
  rw [isEmpty, List.isEmpty_iff, covered, cover_eq_empty_iff h.2]

theorem lt_endPos (h : r.Ordered) (hb : b ∈ r.covered) : b < r.endPos := by
  obtain ⟨p, hp, -, h₂⟩ := hb
  obtain ⟨xs, q, hq⟩ : ∃ xs q, r.spans = xs ++ [q] :=
    List.eq_nil_or_concat r.spans |>.resolve_left (List.ne_nil_of_mem hp)
      |>.imp fun _ ⟨q, hq⟩ => ⟨q, by simpa using hq⟩
  have hend : r.endPos = q.1 + q.2 := by simp [endPos, hq]
  rw [hq] at hp
  rcases List.mem_append.1 hp with hp | hp
  · have hxs := (ordered_append.1 (hq ▸ h.1)).2.2 p hp q List.mem_cons_self
    omega
  · obtain rfl := List.mem_singleton.1 hp
    omega

/-- `endPos` is attained: the byte below it is covered, unless the set is empty. -/
theorem pred_endPos_mem (h : r.Ordered) (hpos : 0 < r.endPos) : r.endPos - 1 ∈ r.covered := by
  rcases List.eq_nil_or_concat r.spans with hnil | ⟨xs, q, hq⟩
  · simp [endPos, hnil] at hpos
  · have hq' : r.spans = xs ++ [q] := by simpa using hq
    have hend : r.endPos = q.1 + q.2 := by simp [endPos, hq']
    have hm : q ∈ r.spans := by simp [hq']
    have := h.2 q hm
    exact mem_cover_of_mem hm (by omega) (by omega)

/-! ### Insertion -/

section Insert

variable {start len : ℕ}

/-- The elements before `lo` end before `start`; the others do not. -/
private theorem lt_lo_iff (start : ℕ) (h : Ranges.Ordered r.spans) {i : ℕ}
    (hi : i < r.spans.length) :
    i < partitionPoint (fun p => decide (p.1 + p.2 < start)) r.spans ↔
      r.spans[i].1 + r.spans[i].2 < start := by
  rw [lt_partitionPoint_iff _ hi, decide_eq_true_eq]
  exact List.Pairwise.imp (fun {p q} h => by simp only [decide_eq_true_eq]; omega) h

/-- The elements before `hi` start at or before `stop`; the others start after it. -/
private theorem lt_hi_iff (stop : ℕ) (h : Ranges.Ordered r.spans) {i : ℕ}
    (hi : i < r.spans.length) :
    i < partitionPoint (fun p => decide (p.1 ≤ stop)) r.spans ↔ r.spans[i].1 ≤ stop := by
  rw [lt_partitionPoint_iff _ hi, decide_eq_true_eq]
  exact List.Pairwise.imp (fun {p q} h => by simp only [decide_eq_true_eq]; omega) h

/-- Replacing the spans with indices in `[lo, hi)` by one range that covers them. -/
private theorem splice_spec {g : ℕ} {l : List (ℕ × ℕ)} (hl : Spaced g l) (lo hi s n : ℕ)
    (hn : 0 < n)
    (hbefore : ∀ i (h : i < l.length), i < lo → l[i].1 + l[i].2 + g ≤ s)
    (hafter : ∀ i (h : i < l.length), hi ≤ i → s + n + g ≤ l[i].1)
    (hmid : ∀ i (h : i < l.length), lo ≤ i → i < hi → s ≤ l[i].1 ∧ l[i].1 + l[i].2 ≤ s + n) :
    Spaced g (l.take lo ++ (s, n) :: l.drop hi) ∧
      cover (l.take lo ++ (s, n) :: l.drop hi) = cover l ∪ Set.Ico s (s + n) := by
  have htake : ∀ p ∈ l.take lo, p.1 + p.2 + g ≤ s := by
    intro p hp
    obtain ⟨i, hi, rfl⟩ := List.mem_take_iff_getElem.1 hp
    exact hbefore i (by omega) (by omega)
  have hdrop : ∀ p ∈ l.drop hi, s + n + g ≤ p.1 := by
    intro p hp
    obtain ⟨i, hi, rfl⟩ := List.mem_drop_iff_getElem.1 hp
    exact hafter _ (by omega) (by omega)
  constructor
  · refine spaced_append.2 ⟨hl.sublist (List.take_sublist _ _),
      spaced_cons.2 ⟨hdrop, hl.sublist (List.drop_sublist _ _)⟩, ?_⟩
    intro p hp q hq
    rcases List.mem_cons.1 hq with rfl | hq
    · exact htake p hp
    · have := htake p hp
      have := hdrop q hq
      omega
  · ext b
    simp only [mem_cover_append, mem_cover_cons, Set.mem_union, Set.mem_Ico]
    constructor
    · rintro (hb | hb | hb)
      · exact Or.inl (cover_mono (fun p hp => List.mem_of_mem_take hp) hb)
      · exact Or.inr hb
      · exact Or.inl (cover_mono (fun p hp => List.mem_of_mem_drop hp) hb)
    · rintro (⟨p, hp, hb⟩ | hb)
      · obtain ⟨i, hi', rfl⟩ := List.getElem_of_mem hp
        rcases Nat.lt_or_ge i lo with h | h
        · exact Or.inl ⟨l[i], List.mem_take_iff_getElem.2 ⟨i, by omega, rfl⟩, hb⟩
        · rcases Nat.lt_or_ge i hi with h' | h'
          · have := hmid i hi' h h'
            exact Or.inr (Or.inl (by omega))
          · refine Or.inr (Or.inr ⟨l[i], List.mem_drop_iff_getElem.2 ⟨i - hi, by omega, ?_⟩, hb⟩)
            congr 1; omega
      · exact Or.inr (Or.inl hb)

/-- The range fits `u64`, or it is empty, or a span on its left reaches it. -/
def Fits (r : RangeSet) (start len : ℕ) : Prop :=
  start + len ≤ u64Max ∨ len = 0 ∨ ∃ p ∈ r.spans, start ≤ p.1 + p.2 ∧ p.1 ≤ u64Max

/-- Spans that only do not overlap (`g = 0`) stay so, and so do spans that do not even touch
(`g = 1`).  A range that runs past the end of `u64` is cut there, provided that it is merged. -/
theorem insert_fits_spec {g : ℕ} (hg : g ≤ 1) (h : Spaced g r.spans) (hpos : Positive r.spans)
    (hstart : start ≤ u64Max) (hfits : r.Fits start len) :
    Spaced g (r.insert start len).spans ∧ Positive (r.insert start len).spans ∧
      (r.insert start len).covered = r.covered ∪ Set.Ico start (satAdd start len) := by
  unfold insert
  split_ifs with h0
  · subst h0; simp [h, hpos, satAdd_eq (b := 0) hstart]
  have hstop : start ≤ satAdd start len := by unfold satAdd; omega
  have hfits' : satAdd start len = start + len ∨
      ∃ p ∈ r.spans, start ≤ p.1 + p.2 ∧ p.1 ≤ satAdd start len := by
    rcases Nat.lt_or_ge u64Max (start + len) with hover | hmax
    · obtain ⟨p, hp, h₁, h₂⟩ := (hfits.resolve_left (by omega)).resolve_left h0
      exact Or.inr ⟨p, hp, h₁, by unfold satAdd; omega⟩
    · exact Or.inl (satAdd_eq hmax)
  dsimp only
  generalize satAdd start len = stop at *
  have hlolt := fun i (hi : i < r.spans.length) => lt_lo_iff start h.ordered hi
  have hhilt := fun i (hi : i < r.spans.length) => lt_hi_iff stop h.ordered hi
  have hhile := partitionPoint_le_length (fun p => decide (p.1 ≤ stop)) r.spans
  generalize partitionPoint (fun p => decide (p.1 + p.2 < start)) r.spans = lo at *
  generalize partitionPoint (fun p => decide (p.1 ≤ stop)) r.spans = hi at *
  have hposmem : ∀ (s n i j : ℕ), 0 < n →
      Positive (r.spans.take i ++ (s, n) :: r.spans.drop j) := by
    intro s n i j hn p hp
    simp only [List.mem_append, List.mem_cons] at hp
    rcases hp with hp | rfl | hp
    · exact hpos p (List.mem_of_mem_take hp)
    · exact hn
    · exact hpos p (List.mem_of_mem_drop hp)
  split_ifs with hcase
  · -- nothing to merge with, so no span reaches the range
    have hadd : stop = start + len := by
      refine hfits'.resolve_right ?_
      rintro ⟨p, hp, h₁, h₂⟩
      obtain ⟨i, hi', rfl⟩ := List.getElem_of_mem hp
      have := (hhilt i hi').2 h₂
      have := (hlolt i hi').1 (by omega)
      omega
    subst hadd
    obtain ⟨hord, hcov⟩ := splice_spec h lo lo start len (by omega)
      (fun i hi' hil => by have := (hlolt i hi').1 hil; omega)
      (fun i hi' hil => by have := hhilt i hi'; omega) (fun i _ h₁ h₂ => by omega)
    exact ⟨hord, hposmem _ _ _ _ (by omega), hcov⟩
  · -- the spans `lo … hi - 1` are replaced by one span
    have hlolen : lo < r.spans.length := by omega
    have hhilen : hi - 1 < r.spans.length := by omega
    simp only [List.getD_eq_getElem?_getD, List.getElem?_eq_getElem hlolen,
      List.getElem?_eq_getElem hhilen, Option.getD_some]
    have hf₁ := hhilt lo hlolen
    have hf₂ := hlolt lo hlolen
    have hl₁ := hhilt (hi - 1) hhilen
    have hl₂ := hlolt (hi - 1) hhilen
    have hpf := hpos _ (List.getElem_mem hlolen)
    have hpl := hpos _ (List.getElem_mem hhilen)
    have hfl : r.spans[lo].1 ≤ r.spans[hi - 1].1 := by
      rcases Nat.eq_or_lt_of_le (show lo ≤ hi - 1 by omega) with he | hlt
      · simp only [he]; exact le_rfl
      · have := h.getElem hlt hhilen; omega
    obtain ⟨hord, hcov⟩ := splice_spec h lo hi
      (min start r.spans[lo].1)
      (max stop (r.spans[hi - 1].1 + r.spans[hi - 1].2) - min start r.spans[lo].1)
      (by omega)
      (fun i hi' hil => by
        have := h.getElem hil hlolen
        have := (hlolt i hi').1 hil
        omega)
      (fun i hi' hil => by
        have := h.getElem (i := hi - 1) (j := i) (by omega) hi'
        have := hhilt i hi'
        omega)
      (fun i hi' h₁ h₂ => by
        have hfst : r.spans[lo].1 ≤ r.spans[i].1 := by
          rcases Nat.eq_or_lt_of_le h₁ with rfl | h₁
          · exact le_rfl
          · have := h.getElem h₁ hi'; omega
        have hlst : r.spans[i].1 + r.spans[i].2 ≤ r.spans[hi - 1].1 + r.spans[hi - 1].2 := by
          rcases Nat.eq_or_lt_of_le (show i ≤ hi - 1 by omega) with he | h₂
          · subst he; exact le_rfl
          · have := h.getElem h₂ hhilen; omega
        omega)
    refine ⟨hord, hposmem _ _ _ _ (by omega), ?_⟩
    refine hcov.trans ?_
    -- what the merged span adds to the new range was covered by its first or its last part
    ext b
    simp only [Set.mem_union, Set.mem_Ico, covered]
    constructor
    · rintro (hb | hb)
      · exact Or.inl hb
      · by_cases hb₁ : b < start
        · exact Or.inl (mem_cover_of_mem (List.getElem_mem hlolen) (by omega) (by omega))
        · by_cases hb₂ : b < stop
          · exact Or.inr ⟨by omega, hb₂⟩
          · exact Or.inl (mem_cover_of_mem (List.getElem_mem hhilen) (by omega) (by omega))
    · rintro (hb | hb)
      · exact Or.inl hb
      · exact Or.inr (by omega)

theorem insert_spec {g : ℕ} (hg : g ≤ 1) (h : Spaced g r.spans) (hpos : Positive r.spans)
    (hmax : start + len ≤ u64Max) :
    Spaced g (r.insert start len).spans ∧ Positive (r.insert start len).spans ∧
      (r.insert start len).covered = r.covered ∪ Set.Ico start (start + len) := by
  have hspec := insert_fits_spec hg h hpos (by omega) (Or.inl hmax)
  rwa [satAdd_eq hmax] at hspec

theorem ordered_insert (h : r.Ordered) (hmax : start + len ≤ u64Max) :
    (r.insert start len).Ordered :=
  ⟨(insert_spec zero_le_one h.1 h.2 hmax).1, (insert_spec zero_le_one h.1 h.2 hmax).2.1⟩

theorem canonical_insert (h : r.Canonical) (hmax : start + len ≤ u64Max) :
    (r.insert start len).Canonical :=
  ⟨(insert_spec le_rfl h.1 h.2 hmax).1, (insert_spec le_rfl h.1 h.2 hmax).2.1⟩

theorem covered_insert (h : r.Ordered) (hmax : start + len ≤ u64Max) :
    (r.insert start len).covered = r.covered ∪ Set.Ico start (start + len) :=
  (insert_spec zero_le_one h.1 h.2 hmax).2.2

example : (insert ⟨[(0, 100), (300, 50)]⟩ 100 200).spans = [(0, 350)] := by decide

end Insert

/-! ### Queries -/

/-- For a canonical set the converse holds, since one span covers the range. -/
theorem containsAll_of_Ico_subset (h : r.Canonical) {start stop : ℕ}
    (hsub : Set.Ico start stop ⊆ r.covered) : r.containsAll start stop = true := by
  by_cases hlt : stop ≤ start
  · simp [containsAll, hlt]
  · obtain ⟨p, hp, h₁, h₂⟩ := hsub (show start ∈ Set.Ico start stop from ⟨le_rfl, by omega⟩)
    by_cases hstop : stop ≤ p.1 + p.2
    · simp only [containsAll, Bool.or_eq_true, List.any_eq_true]
      exact Or.inr ⟨p, hp, decide_eq_true ⟨h₁, by omega⟩⟩
    · -- the byte after the span would lie in another one that touches it
      exfalso
      obtain ⟨q, hq, h₃, h₄⟩ := hsub (show p.1 + p.2 ∈ Set.Ico start stop from ⟨by omega, by omega⟩)
      obtain ⟨i, hi, rfl⟩ := List.getElem_of_mem hp
      obtain ⟨j, hj, rfl⟩ := List.getElem_of_mem hq
      have hsep := List.pairwise_iff_getElem.1 h.1
      rcases lt_trichotomy i j with hij | rfl | hij
      · have := hsep i j hi hj hij
        omega
      · omega
      · have := hsep j i hj hi hij
        omega

theorem Ico_subset_of_containsAll {start stop : ℕ} (h : r.containsAll start stop = true) :
    Set.Ico start stop ⊆ r.covered := by
  rintro b ⟨hb₁, hb₂⟩
  simp only [containsAll, Bool.or_eq_true, decide_eq_true_eq, List.any_eq_true] at h
  rcases h with h | ⟨p, hp, h₁, h₂⟩
  · omega
  · exact mem_cover_of_mem hp (by omega) (by omega)

theorem mem_gapsFrom {stop c : ℕ} {l : List (ℕ × ℕ)} (h : Ranges.Ordered l) :
    b ∈ cover (gapsFrom stop c l) ↔ c ≤ b ∧ b < stop ∧ b ∉ cover l := by
  induction l generalizing c with
  | nil => simp only [gapsFrom]; split_ifs <;> simp <;> omega
  | cons p l ih =>
    obtain ⟨s, n⟩ := p
    obtain ⟨hp, hl⟩ := ordered_cons.1 h
    have hlater : ∀ b ∈ cover l, s + n ≤ b := fun b ⟨q, hq, hb, _⟩ => (hp q hq).trans hb
    have hgap : ∀ g, b ∈ cover [g] ↔ g.1 ≤ b ∧ b < g.1 + g.2 := fun g => by simp
    have hnil : b ∉ cover [] := by simp
    simp only [gapsFrom, mem_cover_cons]
    by_cases hbl : b ∈ cover l
    · -- a byte of a later span lies past this one, and is in no gap
      have hsb := hlater b hbl
      have hrest : ∀ c, b ∉ cover (gapsFrom stop c l) := fun c hb => ((ih hl).1 hb).2.2 hbl
      simp only [hbl, or_true, not_true_eq_false, and_false, iff_false]
      split_ifs with h₁ h₂ h₃ h₄ h₅ h₅
      · exact hrest c
      · rw [hgap]; simp only; omega
      · exact hnil
      · rw [hgap]; simp only; omega
      · exact hnil
      · rw [mem_cover_append, hgap, not_or]; exact ⟨by simp only; omega, hrest _⟩
      · exact hrest _
    · simp only [hbl, or_false]
      have hrest : ∀ c, b ∈ cover (gapsFrom stop c l) ↔ c ≤ b ∧ b < stop := fun c => by
        rw [ih hl]; simp [hbl]
      split_ifs with h₁ h₂ h₃ h₄ h₅ h₅
      · rw [hrest]; omega
      · rw [hgap]; simp only; omega
      · simp only [hnil, false_iff]; omega
      · rw [hgap]; simp only; omega
      · simp only [hnil, false_iff]; omega
      · rw [mem_cover_append, hgap, hrest]; simp only; omega
      · rw [List.nil_append, hrest]; omega

theorem gapsFrom_spec {stop c : ℕ} {l : List (ℕ × ℕ)} (h : Ranges.Ordered l) :
    Ranges.Ordered (gapsFrom stop c l) ∧ Positive (gapsFrom stop c l) ∧
      ∀ p ∈ gapsFrom stop c l, c ≤ p.1 ∧ p.1 + p.2 ≤ stop := by
  induction l generalizing c with
  | nil =>
    simp only [gapsFrom]
    split_ifs
    · simp [Ranges.Ordered, Positive]; omega
    · simp [Ranges.Ordered, Positive]
  | cons p l ih =>
    obtain ⟨s, n⟩ := p
    obtain ⟨hp, hl⟩ := ordered_cons.1 h
    simp only [gapsFrom]
    split_ifs with h₁ h₂ h₃ h₄ h₅ h₅
    · exact ih hl
    · simp [Ranges.Ordered, Positive]; omega
    · simp [Ranges.Ordered, Positive]
    · simp [Ranges.Ordered, Positive]; omega
    · simp [Ranges.Ordered, Positive]
    · obtain ⟨ho, hpos, hin⟩ := ih (c := max c (s + n)) hl
      refine ⟨ordered_cons.2 ⟨?_, ho⟩, ?_, ?_⟩
      · intro q hq
        have := hin q hq
        simp only; omega
      · intro q hq
        rcases List.mem_cons.1 hq with rfl | hq
        · simp only; omega
        · exact hpos q hq
      · intro q hq
        rcases List.mem_cons.1 hq with rfl | hq
        · simp only; omega
        · have := hin q hq; omega
    · obtain ⟨ho, hpos, hin⟩ := ih (c := max c (s + n)) hl
      exact ⟨ho, hpos, fun q hq => by have := hin q hq; omega⟩

theorem cover_gapsIn (h : r.Ordered) (start stop : ℕ) :
    cover (r.gapsIn start stop) = Set.Ico start stop \ r.covered := by
  ext b
  unfold gapsIn
  split_ifs with hc
  · simp [Set.Ico_eq_empty_of_le hc]
  · rw [mem_gapsFrom h.1]; simp [covered, and_assoc]

theorem gapsIn_spec (h : r.Ordered) (start stop : ℕ) :
    Ranges.Ordered (r.gapsIn start stop) ∧ Positive (r.gapsIn start stop) ∧
      ∀ p ∈ r.gapsIn start stop, start ≤ p.1 ∧ p.1 + p.2 ≤ stop := by
  unfold gapsIn
  split_ifs with hc
  · simp [Ranges.Ordered, Positive]
  · exact gapsFrom_spec h.1

/-! ### Shrinking -/

theorem covered_truncateTo (r : RangeSet) (limit : ℕ) :
    (r.truncateTo limit).covered = r.covered ∩ Set.Iio limit := by
  ext b
  simp only [covered, truncateTo, mem_cover, List.mem_filterMap, Set.mem_inter_iff, Set.mem_Iio]
  constructor
  · rintro ⟨q, ⟨p, hp, hq⟩, h₁, h₂⟩
    split_ifs at hq with hc
    · obtain rfl := Option.some.inj hq
      exact ⟨⟨p, hp, by omega⟩, by simp only at h₂; omega⟩
    · obtain rfl := Option.some.inj hq
      exact ⟨⟨p, hp, by omega⟩, by omega⟩
  · rintro ⟨⟨p, hp, h₁, h₂⟩, hb⟩
    by_cases hc : limit < p.1 + p.2
    · exact ⟨(p.1, limit - p.1), ⟨p, hp, by rw [if_neg (by omega), if_pos hc]⟩, h₁, by
        simp only; omega⟩
    · exact ⟨p, ⟨p, hp, by rw [if_neg (by omega), if_neg hc]⟩, h₁, h₂⟩

/-- Shrinking every span from its end, or dropping it, moves no two spans closer. -/
private theorem shrink_spec {g : ℕ} {f : ℕ × ℕ → Option (ℕ × ℕ)} (h : Spaced g r.spans)
    (hf : ∀ p ∈ r.spans, ∀ q, f p = some q → q.1 = p.1 ∧ 0 < q.2 ∧ q.2 ≤ p.2) :
    Spaced g (r.spans.filterMap f) ∧ Positive (r.spans.filterMap f) := by
  constructor
  · refine List.pairwise_filterMap.2 (List.Pairwise.imp_of_mem (fun {p q} hp hq h => ?_) h)
    intro p' hp' q' hq'
    have h₁ := hf p hp p' hp'
    have h₂ := hf q hq q' hq'
    omega
  · intro q hq
    obtain ⟨p, hp, hq⟩ := List.mem_filterMap.1 hq
    exact (hf p hp q hq).2.1

theorem truncateTo_spec {g : ℕ} (h : Spaced g r.spans) (hpos : Positive r.spans) (limit : ℕ) :
    Spaced g (r.truncateTo limit).spans ∧ Positive (r.truncateTo limit).spans := by
  refine shrink_spec h ?_
  intro p hp q hq
  have := hpos p hp
  split_ifs at hq with h₁ h₂
  · obtain rfl := Option.some.inj hq
    exact ⟨rfl, by simp only; omega, by simp only; omega⟩
  · obtain rfl := Option.some.inj hq
    exact ⟨rfl, this, le_rfl⟩

theorem ordered_truncateTo (h : r.Ordered) (limit : ℕ) : (r.truncateTo limit).Ordered :=
  truncateTo_spec (spaced_zero.2 h.1) h.2 limit

theorem canonical_truncateTo (h : r.Canonical) (limit : ℕ) : (r.truncateTo limit).Canonical :=
  truncateTo_spec (spaced_one.2 h.1) h.2 limit

theorem rewindTails_spec {g : ℕ} (h : Spaced g r.spans) (hpos : Positive r.spans) (margin : ℕ) :
    Spaced g (r.rewindTails margin).spans ∧ Positive (r.rewindTails margin).spans := by
  unfold rewindTails
  split_ifs with h0
  · exact ⟨h, hpos⟩
  · refine shrink_spec h ?_
    intro p hp q hq
    split_ifs at hq
    obtain rfl := Option.some.inj hq
    exact ⟨rfl, by simp only; omega, by simp only; omega⟩

theorem ordered_rewindTails (h : r.Ordered) (margin : ℕ) : (r.rewindTails margin).Ordered :=
  rewindTails_spec (spaced_zero.2 h.1) h.2 margin

theorem canonical_new : new.Canonical := ⟨List.Pairwise.nil, by simp [new, Positive]⟩

theorem canonical_rewindTails (h : r.Canonical) (margin : ℕ) :
    (r.rewindTails margin).Canonical := rewindTails_spec (spaced_one.2 h.1) h.2 margin

theorem rewindTails_subset (r : RangeSet) (margin : ℕ) :
    (r.rewindTails margin).covered ⊆ r.covered := by
  unfold rewindTails
  split_ifs with h0
  · exact subset_rfl
  · rintro b ⟨q, hq, h₁, h₂⟩
    obtain ⟨p, hp, hq⟩ := List.mem_filterMap.1 hq
    split_ifs at hq
    obtain rfl := Option.some.inj hq
    exact ⟨p, hp, h₁, by simp only at h₂; omega⟩

/-- A rewind keeps a set only if the set is empty. -/
theorem rewindTails_eq_self_iff {margin : ℕ} (h : 0 < margin) :
    r.rewindTails margin = r ↔ r.isEmpty = true := by
  obtain ⟨l⟩ := r
  unfold rewindTails
  rw [if_neg h.ne', RangeSet.mk.injEq]
  cases l with
  | nil => simp [isEmpty]
  | cons p l =>
    refine iff_of_false (fun heq => ?_) (by simp [isEmpty])
    rw [List.filterMap_cons] at heq
    split_ifs at heq with hp
    · -- the first span is dropped, and no span takes its place
      have hlen := List.length_filterMap_le (fun p : ℕ × ℕ =>
        if p.2 ≤ margin then none else some (p.1, p.2 - margin)) l
      dsimp only at heq
      rw [heq] at hlen
      exact absurd hlen (Nat.not_succ_le_self _)
    · have hhead := congrArg Prod.snd (List.cons.inj heq).1
      simp only at hhead
      omega

end RangeSet

end SwiftLoad
