import SwiftLoad.Util.Canonical

/-!
# Verification windows

`choose_windows` of `task/identity.rs` picks the byte windows that are compared with a replacement
link.  A window is picked in the logical space, in which the downloaded spans are laid end to end,
and only its start is mapped back to the file: a window that holds the boundary of two spans in
the logical space runs past the end of a span in the file.

The hash that spreads the windows is a parameter.

* `chooseWindows` : the windows.
* `logicalPicks` : where they start in the logical space.
* `chooseWindows_inside_iff` : the windows lie inside downloaded data exactly when no logical
  window crosses the end of a span.
-/

namespace SwiftLoad

open Ranges

/-- Bytes compared per verification window. -/
def windowLen : ℕ := 64 * 1024

/-- Windows sampled for a content check. -/
def windowCount : ℕ := 4

section Choose

/-- The search of `locate` through the spans. -/
def locateFrom (fallback : ℕ) : List (ℕ × ℕ) → ℕ → ℕ
  | [], _ => fallback
  | (s, l) :: rest, logical =>
    if logical < l then s + logical else locateFrom fallback rest (logical - l)

/-- `locate`: logical offset to absolute offset within the completed set. -/
def locate (completed : RangeSet) (logical : ℕ) : ℕ :=
  locateFrom (completed.spans.getLast?.elim 0 fun p => p.1 + p.2 - 1) completed.spans logical

/-- The first eight bytes of a digest as a `u64`. -/
def seedValue (seed : List UInt8) : ℕ :=
  (seed.take 8).foldl (fun v b => v <<< 8 % 2 ^ 64 ||| b.toNat) 0

variable (digest : List UInt8 → List UInt8)

/-- The loop of `choose_windows`: `n` picks below `range`, each from the digest of the seed
before. -/
def hashPicks (completed : RangeSet) (range : ℕ) : ℕ → List UInt8 → List ℕ
  | 0, _ => []
  | n + 1, seed =>
    locate completed (seedValue seed % range) :: hashPicks completed range n (digest seed)

/-- `Vec::dedup`: drop the later of two neighbours that are equal. -/
def dedup : List ℕ → List ℕ
  | [] => []
  | [a] => [a]
  | a :: b :: rest => if a = b then dedup (b :: rest) else a :: dedup (b :: rest)

/-- `choose_windows`. -/
def chooseWindows (completed : RangeSet) (downloadId : String) (count : ℕ) : List (ℕ × ℕ) :=
  let total := completed.total
  if total = 0 then []
  else
    let win := min windowLen total
    let picks := locate completed 0 :: if win < total then [locate completed (total - win)] else []
    let picks := picks ++ if win < total then
      hashPicks digest completed (total - win) (count - picks.length)
        (digest downloadId.toUTF8.toList) else []
    (dedup (picks.insertionSort (· ≤ ·))).map fun p => (p, win)

/-- Where the windows start in the logical space: at the first byte, so as to end at the last, and
where the digests of the id tell. -/
def logicalPicks (completed : RangeSet) (downloadId : String) (count : ℕ) : List ℕ :=
  let win := min windowLen completed.total
  if win < completed.total then
    0 :: (completed.total - win) :: (List.range (count - 2)).map fun i =>
      seedValue (digest^[i + 1] downloadId.toUTF8.toList) % (completed.total - win)
  else [0]

end Choose

/-- `[logical, logical + win)` lies in one of the spans, laid end to end. -/
def unbroken (win : ℕ) : List (ℕ × ℕ) → ℕ → Bool
  | [], _ => false
  | p :: rest, logical =>
    if logical < p.2 then decide (logical + win ≤ p.2) else unbroken win rest (logical - p.2)

/-! ### Back to the file -/

section Locate

variable {l : List (ℕ × ℕ)} {fallback logical win b : ℕ}

theorem locateFrom_mem (h : logical < size l) :
    ∃ p ∈ l, p.1 ≤ locateFrom fallback l logical ∧ locateFrom fallback l logical < p.1 + p.2 := by
  induction l generalizing logical with
  | nil => simp at h
  | cons p l ih =>
    rw [size_cons] at h
    rw [locateFrom]
    split_ifs with hlt
    · exact ⟨p, List.mem_cons_self, by omega, by omega⟩
    · have hrest : logical - p.2 < size l := by omega
      obtain ⟨q, hq, hloc⟩ := ih hrest
      exact ⟨q, List.mem_cons_of_mem _ hq, hloc⟩

/-- A window is inside one span of the file when it is inside one span of the logical space. -/
theorem any_locateFrom (hl : Ranges.Ordered l) (hwin : 0 < win) (h : logical < size l) :
    (l.any fun p => decide (p.1 ≤ locateFrom fallback l logical ∧
      locateFrom fallback l logical + win ≤ p.1 + p.2)) = unbroken win l logical := by
  induction l generalizing logical with
  | nil => simp at h
  | cons p l ih =>
    obtain ⟨hp, hl⟩ := ordered_cons.1 hl
    rw [size_cons] at h
    rw [locateFrom, unbroken, List.any_cons]
    split_ifs with hlt
    · -- the start lies in this span, and so in no other
      have hrest : (l.any fun q => decide (q.1 ≤ p.1 + logical ∧
          p.1 + logical + win ≤ q.1 + q.2)) = false := by
        refine List.any_eq_false.2 fun q hq hin => ?_
        have := hp q hq
        have := of_decide_eq_true hin
        omega
      rw [hrest, Bool.or_false]
      exact decide_eq_decide.2 (by omega)
    · have hlt' : logical - p.2 < size l := by omega
      obtain ⟨q, hq, hloc, -⟩ := @locateFrom_mem l fallback (logical - p.2) hlt'
      have := hp q hq
      rw [decide_eq_false (by omega), Bool.false_or]
      exact ih hl hlt'

/-- The last logical window, if it is in one span, ends where the last span ends. -/
theorem locateFrom_last (hl : Positive l) (hle : win ≤ size l)
    (h : unbroken win l (size l - win) = true) :
    locateFrom fallback l (size l - win) + win = l.getLast?.elim 0 fun p => p.1 + p.2 := by
  induction l with
  | nil => cases h
  | cons p l ih =>
    have hl' : Positive l := fun q hq => hl q (List.mem_cons_of_mem _ hq)
    rw [size_cons] at hle h ⊢
    rw [unbroken] at h
    rw [locateFrom]
    split_ifs at h ⊢ with hlt
    · -- a window up to the end of the spans that ends in the first: there is no other
      have hfit := of_decide_eq_true h
      cases l with
      | nil => simp at hfit ⊢; omega
      | cons q l =>
        have := hl' q List.mem_cons_self
        rw [size_cons] at hfit
        omega
    · have hsub : p.2 + size l - win - p.2 = size l - win := by omega
      rw [hsub] at h ⊢
      rw [ih hl' (by omega) h]
      cases l with
      | nil => cases h
      | cons q l => rw [List.getLast?_cons_cons]

theorem add_size_le_last {p : ℕ × ℕ} (hl : Ranges.Ordered (p :: l)) :
    p.1 + size (p :: l) ≤ (p :: l).getLast?.elim 0 fun q => q.1 + q.2 := by
  induction l generalizing p with
  | nil => simp
  | cons q l ih =>
    obtain ⟨hp, hl⟩ := ordered_cons.1 hl
    have hpq := hp q List.mem_cons_self
    have hrest := ih hl
    rw [size_cons, List.getLast?_cons_cons]
    omega

theorem locateFrom_add_le (hl : Ranges.Ordered l) (hwin : 0 < win) (h : logical + win ≤ size l) :
    locateFrom fallback l logical + win ≤ l.getLast?.elim 0 fun p => p.1 + p.2 := by
  induction l generalizing logical with
  | nil => simp at h; omega
  | cons p l ih =>
    have hlast := add_size_le_last hl
    rw [locateFrom]
    split_ifs with hlt
    · omega
    · rw [size_cons] at h
      have hrest := ih (ordered_cons.1 hl).2 (show logical - p.2 + win ≤ size l by omega)
      cases l with
      | nil => simp at h; omega
      | cons q l => rwa [List.getLast?_cons_cons]

end Locate

/-! ### The windows that are chosen -/

theorem mem_dedup {l : List ℕ} {a : ℕ} : a ∈ dedup l ↔ a ∈ l := by
  induction l using dedup.induct with
  | case1 => rfl
  | case2 => rfl
  | case3 b rest ih => rw [dedup, if_pos rfl, ih]; simp
  | case4 a' b rest hne ih => rw [dedup, if_neg hne, List.mem_cons, ih, ← List.mem_cons]

theorem hashPicks_eq (digest : List UInt8 → List UInt8) (completed : RangeSet) (range n : ℕ)
    (seed : List UInt8) : hashPicks digest completed range n seed =
      (List.range n).map fun i => locate completed (seedValue (digest^[i] seed) % range) := by
  induction n generalizing seed with
  | zero => rfl
  | succ n ih =>
    rw [hashPicks, ih, List.range_succ_eq_map, List.map_cons, List.map_map]
    rfl

section Windows

variable {digest : List UInt8 → List UInt8} {completed : RangeSet} {downloadId : String}
  {count : ℕ}

theorem chooseWindows_eq (htotal : completed.total ≠ 0) :
    chooseWindows digest completed downloadId count =
      (dedup (((logicalPicks digest completed downloadId count).map
        (locate completed)).insertionSort (· ≤ ·))).map
          fun p => (p, min windowLen completed.total) := by
  unfold chooseWindows logicalPicks
  rw [if_neg htotal]
  dsimp only
  split_ifs with hlt
  · simp only [List.map_cons, List.map_map, List.length_cons, List.length_nil, hashPicks_eq]
    rfl
  · rfl

theorem mem_chooseWindows (htotal : completed.total ≠ 0) {w : ℕ × ℕ} :
    w ∈ chooseWindows digest completed downloadId count ↔
      ∃ x ∈ logicalPicks digest completed downloadId count,
        (locate completed x, min windowLen completed.total) = w := by
  rw [chooseWindows_eq htotal]
  simp only [List.mem_map, mem_dedup, List.mem_insertionSort]
  exact ⟨fun ⟨p, ⟨x, hx, hp⟩, hw⟩ => ⟨x, hx, hp ▸ hw⟩, fun ⟨x, hx, hw⟩ => ⟨_, ⟨x, hx, rfl⟩, hw⟩⟩

theorem logicalPicks_le {x : ℕ}
    (hx : x ∈ logicalPicks digest completed downloadId count) :
    x + min windowLen completed.total ≤ completed.total := by
  unfold logicalPicks at hx
  dsimp only at hx
  split_ifs at hx with hlt
  · simp only [List.mem_cons, List.mem_map] at hx
    rcases hx with rfl | rfl | ⟨i, -, rfl⟩
    · omega
    · omega
    · have hmod := Nat.mod_lt (seedValue (digest^[i + 1] downloadId.toUTF8.toList))
        (show completed.total - min windowLen completed.total > 0 by omega)
      omega
  · obtain rfl := List.mem_singleton.1 hx
    omega

theorem zero_mem_logicalPicks : 0 ∈ logicalPicks digest completed downloadId count := by
  unfold logicalPicks
  dsimp only
  split_ifs
  · exact List.mem_cons_self
  · exact List.mem_singleton.2 rfl

theorem last_mem_logicalPicks : completed.total - min windowLen completed.total ∈
    logicalPicks digest completed downloadId count := by
  unfold logicalPicks
  dsimp only
  split_ifs with hlt
  · exact List.mem_cons_of_mem _ List.mem_cons_self
  · exact List.mem_singleton.2 (by omega)

/-- The windows are not empty and end where the last span does, at the latest. -/
theorem chooseWindows_le (hc : completed.Ordered) :
    ∀ w ∈ chooseWindows digest completed downloadId count,
      0 < w.2 ∧ w.1 + w.2 ≤ completed.endPos := by
  intro w hw
  by_cases htotal : completed.total = 0
  · rw [chooseWindows, if_pos htotal] at hw
    cases hw
  · obtain ⟨x, hx, rfl⟩ := (mem_chooseWindows htotal).1 hw
    have hwin : 0 < min windowLen completed.total := by
      unfold windowLen; omega
    exact ⟨hwin, locateFrom_add_le hc.1 hwin (logicalPicks_le hx)⟩

theorem containsAll_locate (h : completed.Ordered) {x win : ℕ} (hwin : 0 < win)
    (hx : x < completed.total) :
    completed.containsAll (locate completed x) (locate completed x + win) =
      unbroken win completed.spans x := by
  rw [← any_locateFrom h.1 hwin hx, RangeSet.containsAll, decide_eq_false (by omega),
    Bool.false_or, Nat.add_sub_cancel_left]
  rfl

/-- The windows lie inside downloaded data, and hold its first and its last byte, exactly when no
logical window crosses the end of a span. -/
theorem chooseWindows_inside_iff (hc : completed.Canonical) (hne : completed.isEmpty = false) :
    ((∀ w ∈ chooseWindows digest completed downloadId count,
        completed.containsAll w.1 (w.1 + w.2) = true) ∧
      (∀ b, IsLeast completed.covered b ∨ IsGreatest completed.covered b →
        ∃ w ∈ chooseWindows digest completed downloadId count, w.1 ≤ b ∧ b < w.1 + w.2)) ↔
      ∀ x ∈ logicalPicks digest completed downloadId count,
        unbroken (min windowLen completed.total) completed.spans x = true := by
  have hspans : completed.spans ≠ [] := by
    intro hnil
    simp [RangeSet.isEmpty, hnil] at hne
  obtain ⟨first, rest, hcons⟩ := List.exists_cons_of_ne_nil hspans
  have hpos : 0 < first.2 := hc.2 first (by rw [hcons]; exact List.mem_cons_self)
  have htotal : completed.total ≠ 0 := by
    rw [RangeSet.total, hcons, size_cons]
    omega
  have hwin : 0 < min windowLen completed.total := by
    unfold windowLen; omega
  have hinside : ∀ x ∈ logicalPicks digest completed downloadId count,
      completed.containsAll (locate completed x)
        (locate completed x + min windowLen completed.total) =
          unbroken (min windowLen completed.total) completed.spans x := fun x hx =>
    containsAll_locate hc.ordered hwin (by have := logicalPicks_le hx; omega)
  constructor
  · rintro ⟨hin, -⟩ x hx
    rw [← hinside x hx]
    exact hin _ ((mem_chooseWindows htotal).2 ⟨x, hx, rfl⟩)
  · intro hunbroken
    refine ⟨?_, ?_⟩
    · intro w hw
      obtain ⟨x, hx, rfl⟩ := (mem_chooseWindows htotal).1 hw
      exact (hinside x hx).trans (hunbroken x hx)
    · rintro b (hb | hb)
      · -- the first window starts at the first byte
        have hlocate : locate completed 0 = first.1 := by
          rw [locate, hcons, locateFrom, if_pos hpos, Nat.add_zero]
        have hfirst : first.1 ∈ completed.covered := by
          rw [RangeSet.covered, hcons]
          exact mem_cover_of_mem List.mem_cons_self le_rfl (by omega)
        have hle : first.1 ≤ b := by
          obtain ⟨q, hq, hqb, -⟩ := hb.1
          rw [hcons] at hq
          have hord := hc.1.ordered
          rw [hcons] at hord
          rcases List.mem_cons.1 hq with rfl | hq
          · exact hqb
          · have := (ordered_cons.1 hord).1 q hq
            omega
        refine ⟨_, (mem_chooseWindows htotal).2 ⟨0, zero_mem_logicalPicks, rfl⟩, ?_, ?_⟩
        · rw [hlocate]
          exact hle
        · have := hb.2 hfirst
          simp only [hlocate]
          omega
      · -- the window that ends with the logical space ends with the last span
        have hmem : completed.total - min windowLen completed.total ∈
            logicalPicks digest completed downloadId count := last_mem_logicalPicks
        have hlast : locate completed (completed.total - min windowLen completed.total) +
            min windowLen completed.total = completed.endPos :=
          locateFrom_last hc.2 (min_le_right _ _) (hunbroken _ hmem)
        have hlt := RangeSet.lt_endPos hc.ordered hb.1
        have hge := hb.2 (RangeSet.pred_endPos_mem hc.ordered (by omega))
        refine ⟨_, (mem_chooseWindows htotal).2 ⟨_, hmem, rfl⟩, ?_, ?_⟩
        · simp only
          omega
        · simp only [hlast]
          exact hlt

end Windows

/-- Two spans, each of at least a window: both ends are in, and no digest is needed. -/
theorem chooseWindows_inside_two :
    (∀ w ∈ chooseWindows (fun b => b) ⟨[(0, 70000), (80000, 66000)]⟩ "id" 2,
      (⟨[(0, 70000), (80000, 66000)]⟩ : RangeSet).containsAll w.1 (w.1 + w.2) = true) ∧
      ∀ b, IsLeast (⟨[(0, 70000), (80000, 66000)]⟩ : RangeSet).covered b ∨
          IsGreatest (⟨[(0, 70000), (80000, 66000)]⟩ : RangeSet).covered b →
        ∃ w ∈ chooseWindows (fun b => b) ⟨[(0, 70000), (80000, 66000)]⟩ "id" 2,
          w.1 ≤ b ∧ b < w.1 + w.2 :=
  (chooseWindows_inside_iff (by decide) rfl).2 (by decide)

/-- Ten bytes, a hole of ten and ten bytes more: the only window has twenty bytes and starts at
the first span, so that it ends in the hole's end and misses the last byte. -/
theorem chooseWindows_hole :
    ¬∀ (digest : List UInt8 → List UInt8) (completed : RangeSet) (downloadId : String) (count : ℕ),
      completed.Canonical → completed.isEmpty = false → 2 ≤ count →
        (∀ w ∈ chooseWindows digest completed downloadId count,
          completed.containsAll w.1 (w.1 + w.2) = true) ∧
        ∀ b, IsLeast completed.covered b ∨ IsGreatest completed.covered b →
          ∃ w ∈ chooseWindows digest completed downloadId count, w.1 ≤ b ∧ b < w.1 + w.2 := by
  intro h
  have hin := (h (fun b => b) ⟨[(0, 10), (20, 10)]⟩ "id" 2 (by decide) rfl le_rfl).1
  exact absurd (hin (0, 20) (by decide)) (by decide)

end SwiftLoad
