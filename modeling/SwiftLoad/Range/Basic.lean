import Mathlib.Data.List.Sort
import Mathlib.Data.List.MinMax
import Mathlib.Data.Set.Card
import Mathlib.Order.Interval.Set.Nat
import Mathlib.Order.Interval.Finset.Nat
import Mathlib.Order.CompletePartialOrder

/-!
# Lists of byte ranges

A range is a pair `(start, len)` and stands for the bytes `start … start + len - 1`.  A list of
ranges denotes the set of the bytes its members cover (`Ranges.cover`).  The lists of interest
are `Ranges.Ordered` (sorted, no two overlap), `Ranges.Separated` (sorted, no two touch) or just
`Ranges.Apart` (no two overlap).  When no two overlap, the number of covered bytes is the sum of
the lengths (`Ranges.ncard_cover`).

Also here: the search functions of a sequence library, with what they promise.

* `Ranges.partitionPoint` : how many leading elements satisfy a predicate; on a list partitioned
  by it, exactly the elements before that index satisfy it (`lt_partitionPoint_iff`).
* `Ranges.sortByStart` : sorting by the start of a range.
* `Ranges.maxByKey` : the last of the elements with the largest key.
-/

namespace SwiftLoad

namespace Ranges

variable {l l' : List (ℕ × ℕ)} {p : ℕ × ℕ} {b : ℕ}

/-- The bytes of one range. -/
def span (p : ℕ × ℕ) : Set ℕ := Set.Ico p.1 (p.1 + p.2)

/-- The bytes covered by a list of ranges. -/
def cover (l : List (ℕ × ℕ)) : Set ℕ := {b | ∃ p ∈ l, p.1 ≤ b ∧ b < p.1 + p.2}

/-- The sum of the lengths. -/
def size (l : List (ℕ × ℕ)) : ℕ := (l.map Prod.snd).sum

/-- Sorted by start, and no two ranges overlap. -/
def Ordered (l : List (ℕ × ℕ)) : Prop := l.Pairwise fun p q => p.1 + p.2 ≤ q.1

/-- Sorted by start, and between any two ranges there is a gap. -/
def Separated (l : List (ℕ × ℕ)) : Prop := l.Pairwise fun p q => p.1 + p.2 < q.1

/-- Sorted by start, with at least `g` bytes between any two ranges. -/
def Spaced (g : ℕ) (l : List (ℕ × ℕ)) : Prop := l.Pairwise fun p q => p.1 + p.2 + g ≤ q.1

/-- No range is empty. -/
def Positive (l : List (ℕ × ℕ)) : Prop := ∀ p ∈ l, 0 < p.2

instance : DecidablePred Ordered := fun l =>
  inferInstanceAs (Decidable (l.Pairwise fun p q => p.1 + p.2 ≤ q.1))

instance : DecidablePred Separated := fun l =>
  inferInstanceAs (Decidable (l.Pairwise fun p q => p.1 + p.2 < q.1))

instance : DecidablePred Positive := fun l =>
  inferInstanceAs (Decidable (∀ p ∈ l, 0 < p.2))

/-! ### Covered bytes -/

theorem mem_span : b ∈ span p ↔ p.1 ≤ b ∧ b < p.1 + p.2 := Iff.rfl

@[simp] theorem span_zero (n : ℕ) : span (n, 0) = ∅ := by
  ext b; simp [mem_span]

theorem mem_cover : b ∈ cover l ↔ ∃ p ∈ l, p.1 ≤ b ∧ b < p.1 + p.2 := Iff.rfl

@[simp] theorem cover_nil : cover [] = ∅ := by
  ext b; simp [mem_cover]

@[simp] theorem mem_cover_cons : b ∈ cover (p :: l) ↔ (p.1 ≤ b ∧ b < p.1 + p.2) ∨ b ∈ cover l := by
  simp [mem_cover]

theorem cover_cons (p : ℕ × ℕ) (l : List (ℕ × ℕ)) :
    cover (p :: l) = span p ∪ cover l := by
  ext b; simp [mem_span]

@[simp] theorem mem_cover_append : b ∈ cover (l ++ l') ↔ b ∈ cover l ∨ b ∈ cover l' := by
  simp only [mem_cover, List.mem_append, or_and_right, exists_or]

theorem cover_append (l l' : List (ℕ × ℕ)) : cover (l ++ l') = cover l ∪ cover l' := by
  ext b; simp

theorem cover_perm (h : l.Perm l') : cover l = cover l' := by
  ext b; simp only [mem_cover, h.mem_iff]

theorem cover_mono (h : ∀ p ∈ l, p ∈ l') : cover l ⊆ cover l' :=
  fun _ ⟨p, hp, hb⟩ => ⟨p, h p hp, hb⟩

theorem mem_cover_of_mem (hp : p ∈ l) (h₁ : p.1 ≤ b) (h₂ : b < p.1 + p.2) : b ∈ cover l :=
  ⟨p, hp, h₁, h₂⟩

theorem cover_finite (l : List (ℕ × ℕ)) : (cover l).Finite := by
  induction l with
  | nil => simp
  | cons p l ih => rw [cover_cons]; exact (Set.finite_Ico _ _).union ih

theorem cover_eq_empty_iff (h : Positive l) : cover l = ∅ ↔ l = [] := by
  constructor
  · intro hc
    cases l with
    | nil => rfl
    | cons p l =>
      have hp : 0 < p.2 := h p List.mem_cons_self
      have : p.1 ∈ cover (p :: l) := mem_cover_of_mem List.mem_cons_self le_rfl (by omega)
      simp [hc] at this
  · rintro rfl; simp

/-! ### Sizes -/

@[simp] theorem size_nil : size [] = 0 := rfl

@[simp] theorem size_cons (p : ℕ × ℕ) (l : List (ℕ × ℕ)) : size (p :: l) = p.2 + size l := by
  simp [size]

@[simp] theorem size_append (l l' : List (ℕ × ℕ)) : size (l ++ l') = size l + size l' := by
  simp [size]

theorem ordered_nil : Ordered [] := List.Pairwise.nil

theorem spaced_zero : Spaced 0 l ↔ Ordered l := Iff.rfl

theorem spaced_one : Spaced 1 l ↔ Separated l := Iff.rfl

theorem Spaced.ordered {g : ℕ} (h : Spaced g l) : Ordered l :=
  List.Pairwise.imp (fun h => (Nat.le_add_right _ _).trans h) h

theorem spaced_cons {g : ℕ} :
    Spaced g (p :: l) ↔ (∀ q ∈ l, p.1 + p.2 + g ≤ q.1) ∧ Spaced g l := List.pairwise_cons

theorem spaced_append {g : ℕ} : Spaced g (l ++ l') ↔
    Spaced g l ∧ Spaced g l' ∧ ∀ p ∈ l, ∀ q ∈ l', p.1 + p.2 + g ≤ q.1 := List.pairwise_append

theorem Spaced.sublist {g : ℕ} (h : Spaced g l') (hs : l.Sublist l') : Spaced g l :=
  List.Pairwise.sublist hs h

theorem Spaced.getElem {g : ℕ} (h : Spaced g l) {i j : ℕ} (hij : i < j) (hj : j < l.length) :
    l[i].1 + l[i].2 + g ≤ l[j].1 := List.pairwise_iff_getElem.1 h i j _ hj hij

theorem Separated.ordered (h : Separated l) : Ordered l := List.Pairwise.imp (fun h => le_of_lt h) h

theorem ordered_cons : Ordered (p :: l) ↔ (∀ q ∈ l, p.1 + p.2 ≤ q.1) ∧ Ordered l :=
  List.pairwise_cons

theorem ordered_append : Ordered (l ++ l') ↔
    Ordered l ∧ Ordered l' ∧ ∀ p ∈ l, ∀ q ∈ l', p.1 + p.2 ≤ q.1 := List.pairwise_append

/-! ### Disjoint ranges -/

/-- No byte lies in two ranges.  Unlike `Ordered` this does not depend on the order. -/
def Apart (l : List (ℕ × ℕ)) : Prop := l.Pairwise fun p q => Disjoint (span p) (span q)

theorem disjoint_span_cover :
    Disjoint (span p) (cover l) ↔ ∀ q ∈ l, Disjoint (span p) (span q) := by
  simp only [Set.disjoint_left, mem_cover, mem_span]
  exact ⟨fun h q hq b hb hbq => h hb ⟨q, hq, hbq⟩, fun h b hb ⟨q, hq, hbq⟩ => h q hq hb hbq⟩

@[simp] theorem apart_nil : Apart [] := List.Pairwise.nil

theorem apart_cons : Apart (p :: l) ↔ Disjoint (span p) (cover l) ∧ Apart l := by
  rw [disjoint_span_cover]; exact List.pairwise_cons

theorem apart_append : Apart (l ++ l') ↔ Apart l ∧ Apart l' ∧ Disjoint (cover l) (cover l') := by
  induction l with
  | nil => simp
  | cons p l ih =>
    rw [List.cons_append, apart_cons, apart_cons, ih, cover_append, Set.disjoint_union_right,
      cover_cons, Set.disjoint_union_left]
    tauto

theorem Apart.perm (h : Apart l) (hp : l.Perm l') : Apart l' :=
  (hp.pairwise_iff fun h => h.symm).1 h

theorem Ordered.apart (h : Ordered l) : Apart l := by
  refine List.Pairwise.imp (fun {p q} hpq => ?_) h
  refine Set.disjoint_left.2 ?_
  intro b hb hb'
  rw [mem_span] at hb hb'
  omega

/-- Cutting a range in two. -/
theorem apart_split {s m n : ℕ} :
    Apart ((s, m) :: (s + m, n) :: l) ↔ Apart ((s, m + n) :: l) := by
  have hu : span (s, m + n) = span (s, m) ∪ span (s + m, n) := by
    ext b; simp only [mem_span, Set.mem_union]; omega
  have hd : Disjoint (span (s, m)) (span (s + m, n)) :=
    Set.disjoint_left.2 fun b hb hb' => by rw [mem_span] at hb hb'; omega
  rw [apart_cons, apart_cons, apart_cons, cover_cons, Set.disjoint_union_right, hu,
    Set.disjoint_union_left]
  exact ⟨fun ⟨⟨_, h₁⟩, h₂, h₃⟩ => ⟨⟨h₁, h₂⟩, h₃⟩, fun ⟨⟨h₁, h₂⟩, h₃⟩ => ⟨⟨hd, h₁⟩, h₂, h₃⟩⟩

theorem cover_split (s m n : ℕ) (l : List (ℕ × ℕ)) :
    cover ((s, m) :: (s + m, n) :: l) = cover ((s, m + n) :: l) := by
  ext b; simp only [mem_cover_cons, ← or_assoc]; refine or_congr_left ?_; omega

theorem ncard_span (p : ℕ × ℕ) : (span p).ncard = p.2 := by
  rw [span, Set.ncard_eq_toFinset_card', Set.toFinset_Ico, Nat.card_Ico]
  omega

/-- When no byte lies in two ranges, the covered bytes are counted by the sum of the lengths. -/
theorem ncard_cover (h : Apart l) : (cover l).ncard = size l := by
  induction l with
  | nil => simp
  | cons p l ih =>
    obtain ⟨hp, hl⟩ := apart_cons.1 h
    rw [cover_cons, Set.ncard_union_eq hp (Set.finite_Ico _ _) (cover_finite l), ih hl, size_cons]
    exact congrArg (· + size l) (ncard_span p)

/-- Ranges that share no byte have no more bytes than there are places for them. -/
theorem size_le {n : ℕ} (h : Apart l) (hlt : ∀ b ∈ cover l, b < n) : size l ≤ n := by
  calc size l = (cover l).ncard := (ncard_cover h).symm
    _ ≤ (Set.Iio n).ncard := Set.ncard_le_ncard hlt (Set.finite_Iio n)
    _ = n := by simp

theorem size_pos {l : List (ℕ × ℕ)} (h : b ∈ cover l) : 0 < size l := by
  induction l with
  | nil => simp at h
  | cons p l ih =>
    rw [size_cons]
    rw [mem_cover_cons] at h
    rcases h with h | h
    · have := mem_span.1 h
      omega
    · have := ih h
      omega

/-! ### Partition points -/

/-- `slice::partition_point`: the number of leading elements that satisfy `q`. -/
def partitionPoint {α : Type*} (q : α → Bool) (l : List α) : ℕ := (l.takeWhile q).length

theorem partitionPoint_le_length {α : Type*} (q : α → Bool) (l : List α) :
    partitionPoint q l ≤ l.length := (List.takeWhile_sublist _).length_le

/-- On a list partitioned by `q` (once an element fails, all later ones fail), the elements that
satisfy `q` are exactly those before the partition point. -/
theorem lt_partitionPoint_iff {α : Type*} {q : α → Bool} {l : List α}
    (h : l.Pairwise fun x y => q y = true → q x = true) {i : ℕ} (hi : i < l.length) :
    i < partitionPoint q l ↔ q l[i] = true := by
  induction l generalizing i with
  | nil => simp at hi
  | cons x l ih =>
    obtain ⟨hx, hl⟩ := List.pairwise_cons.1 h
    unfold partitionPoint at ih ⊢
    cases hq : q x with
    | true =>
      rw [List.takeWhile_cons_of_pos hq]
      cases i with
      | zero => simp [hq]
      | succ i =>
        simp only [List.length_cons, List.getElem_cons_succ, Nat.add_lt_add_iff_right]
        exact ih hl (by simpa using hi)
    | false =>
      rw [List.takeWhile_cons_of_neg (by simp [hq])]
      cases i with
      | zero => simp [hq]
      | succ i =>
        have hi' : i < l.length := by simpa using hi
        have hm : l[i] ∈ l := List.getElem_mem hi'
        simp only [List.length_nil, Nat.not_lt_zero, List.getElem_cons_succ, false_iff]
        intro hqi
        exact Bool.noConfusion ((hx _ hm hqi).symm.trans hq)

/-! ### Sorting and maxima -/

/-- Order items by the position they carry. -/
abbrev startLe {α : Type*} (p q : ℕ × α) : Prop := p.1 ≤ q.1

instance {α : Type*} : Std.Total (startLe (α := α)) := ⟨fun p q => le_total p.1 q.1⟩

instance {α : Type*} : IsTrans (ℕ × α) startLe := ⟨fun _ _ _ h h' => le_trans h h'⟩

/-- Sort items by position. -/
def sortByStart {α : Type*} (l : List (ℕ × α)) : List (ℕ × α) := l.insertionSort startLe

theorem sortByStart_perm {α : Type*} (l : List (ℕ × α)) : (sortByStart l).Perm l :=
  List.perm_insertionSort _ l

theorem sortByStart_pairwise {α : Type*} (l : List (ℕ × α)) : (sortByStart l).Pairwise startLe :=
  List.pairwise_insertionSort _ l

/-- `Iterator::max_by_key`: the last of the elements with the largest key. -/
def maxByKey {α : Type*} (key : α → ℕ) (l : List α) : Option α := l.reverse.argmax key

theorem mem_of_maxByKey {α : Type*} {key : α → ℕ} {l : List α} {a : α}
    (h : maxByKey key l = some a) : a ∈ l :=
  List.mem_reverse.1 (List.argmax_mem (Option.mem_def.2 h))

theorem le_maxByKey {α : Type*} {key : α → ℕ} {l : List α} {a x : α}
    (h : maxByKey key l = some a) (hx : x ∈ l) : key x ≤ key a :=
  List.le_of_mem_argmax (List.mem_reverse.2 hx) (Option.mem_def.2 h)

theorem maxByKey_eq_none {α : Type*} {key : α → ℕ} {l : List α} :
    maxByKey key l = none ↔ l = [] := by
  simp [maxByKey]

example : maxByKey Prod.snd [(0, 5), (7, 9), (20, 9), (40, 1)] = some (20, 9) := by decide

end Ranges

end SwiftLoad
