import Mathlib.Data.Finset.Card
import Mathlib.Data.Finset.Range
import Mathlib.Order.WellFounded
import Mathlib.Tactic.Push
import Mathlib.Tactic.SplitIfs
import SwiftLoad.Machine.Basic

/-!
# Runs that end

Total correctness of a machine: every run is short, and a run that cannot go on ends well.

* `Machine.EndsWithin` : the property.
* `Machine.EndsWithin.of_rank` : the rule: an invariant with a rank that every step lowers.
* `Machine.EndsWithin.exists_end` : every run can be continued to its end.

Runs that go on for ever but settle: the steps that lower a rank are few.

* `Ranked.card_add_le` : there are at most as many of them as the rank at first.
* `Ranked.eventually` : from some point on there are none.
-/

namespace SwiftLoad

namespace Machine

variable {σ ε : Type*} (M : Machine σ ε) (P : σ → ε → Prop)

/-- No permitted event is possible. -/
def Stuck (s : σ) : Prop := ∀ e s', P s e → M.step s e ≠ some s'

/-- Runs of permitted events from `s₀` have at most `n` steps, and one that cannot go on ends in
`Q`. -/
def EndsWithin [∀ s e, Decidable (P s e)] (n : ℕ) (s₀ : σ) (Q : σ → Prop) : Prop :=
  ∀ es s, M.execUnder P s₀ es = some s → es.length ≤ n ∧ (M.Stuck P s → Q s)

variable {M P} [∀ s e, Decidable (P s e)] {s₀ s s' : σ} {Q : σ → Prop} {n : ℕ}

theorem execUnder_cons {e : ε} {es : List ε} :
    M.execUnder P s (e :: es) = some s' ↔
      ∃ t, P s e ∧ M.step s e = some t ∧ M.execUnder P t es = some s' := by
  rw [execUnder]
  split_ifs with h
  · rw [Option.bind_eq_some_iff]
    constructor
    · rintro ⟨t, ht, hes⟩
      exact ⟨t, h, ht, hes⟩
    · rintro ⟨t, -, ht, hes⟩
      exact ⟨t, ht, hes⟩
  · constructor
    · intro hn
      cases hn
    · rintro ⟨t, hp, -⟩
      exact absurd hp h

theorem execUnder_append {es es' : List ε} (h : M.execUnder P s₀ es = some s)
    (h' : M.execUnder P s es' = some s') : M.execUnder P s₀ (es ++ es') = some s' := by
  induction es generalizing s₀ with
  | nil =>
    obtain rfl := Option.some.inj h
    exact h'
  | cons e es ih =>
    obtain ⟨t, hp, ht, hes⟩ := execUnder_cons.1 h
    exact execUnder_cons.2 ⟨t, hp, ht, ih hes⟩

/-- What a run has used up of the rank. -/
theorem execUnder_rank {I : ℕ → σ → Prop}
    (hstep : ∀ k s e s', I k s → P s e → M.step s e = some s' → ∃ k' < k, I k' s') {k : ℕ}
    {es : List ε} (hs : I k s) (h : M.execUnder P s es = some s') :
    ∃ k', es.length + k' ≤ k ∧ I k' s' := by
  induction es generalizing s k with
  | nil =>
    obtain rfl := Option.some.inj h
    exact ⟨k, by simp, hs⟩
  | cons e es ih =>
    obtain ⟨t, hp, ht, hes⟩ := execUnder_cons.1 h
    obtain ⟨k₁, hlt, hI⟩ := hstep k s e t hs hp ht
    obtain ⟨k', hle, hI'⟩ := ih hI hes
    exact ⟨k', by rw [List.length_cons]; omega, hI'⟩

namespace EndsWithin

/-- An invariant with a rank that every step lowers. -/
theorem of_rank {I : ℕ → σ → Prop}
    (hstep : ∀ k s e s', I k s → P s e → M.step s e = some s' → ∃ k' < k, I k' s')
    (hend : ∀ k s, I k s → M.Stuck P s → Q s) (hs : I n s₀) : M.EndsWithin P n s₀ Q := by
  intro es s h
  obtain ⟨k, hle, hI⟩ := execUnder_rank hstep hs h
  exact ⟨by omega, hend k s hI⟩

/-- Every run can be continued to its end. -/
theorem exists_end (h : M.EndsWithin P n s₀ Q) {es : List ε} (hs : M.execUnder P s₀ es = some s) :
    ∃ s', M.ReachesUnder P s s' ∧ M.Stuck P s' ∧ Q s' := by
  obtain ⟨k, hk⟩ : ∃ k, n - es.length = k := ⟨_, rfl⟩
  induction k generalizing es s with
  | zero =>
    have hstuck : M.Stuck P s := by
      intro e s' hp hst
      have hlong := (h (es ++ [e]) s' (execUnder_append hs (execUnder_cons.2 ⟨s', hp, hst, rfl⟩))).1
      rw [List.length_append, List.length_singleton] at hlong
      omega
    exact ⟨s, .refl, hstuck, (h es s hs).2 hstuck⟩
  | succ k ih =>
    by_cases hstuck : M.Stuck P s
    · exact ⟨s, .refl, hstuck, (h es s hs).2 hstuck⟩
    · obtain ⟨e, s', hp, hst⟩ : ∃ e s', P s e ∧ M.step s e = some s' := by
        unfold Stuck at hstuck
        push Not at hstuck
        exact hstuck
      obtain ⟨t, ht, hend⟩ := ih (execUnder_append hs (execUnder_cons.2 ⟨s', hp, hst, rfl⟩))
        (by rw [List.length_append, List.length_singleton]; omega)
      exact ⟨t, (ReachesUnder.single hp hst).trans ht, hend⟩

end EndsWithin

end Machine

/-! ### Sequences that settle -/

namespace Ranked

variable {rank : ℕ → ℕ} {moves : ℕ → Prop}

/-- Steps that lower a rank which no step raises are at most as many as the rank falls. -/
theorem card_add_le [DecidablePred moves] (hle : ∀ n, rank (n + 1) ≤ rank n)
    (hlt : ∀ n, moves n → rank (n + 1) < rank n) (n : ℕ) :
    ((Finset.range n).filter moves).card + rank n ≤ rank 0 := by
  induction n with
  | zero => simp
  | succ n ih =>
    have hn := hle n
    rw [Finset.range_add_one, Finset.filter_insert]
    split_ifs with h
    · have := hlt n h
      rw [Finset.card_insert_of_notMem (by simp)]
      omega
    · omega

/-- From some point on no step lowers the rank. -/
theorem eventually (hle : ∀ n, rank (n + 1) ≤ rank n)
    (hlt : ∀ n, moves n → rank (n + 1) < rank n) : ∃ N, ∀ n ≥ N, ¬moves n := by
  have hanti : Antitone rank := antitone_nat_of_succ_le hle
  refine ⟨Function.argmin rank, fun n hn hmoves => ?_⟩
  have hmin : ¬rank (n + 1) < rank (Function.argmin rank) := Function.not_lt_argmin rank _
  exact hmin ((hlt n hmoves).trans_le (hanti hn))

end Ranked

end SwiftLoad
