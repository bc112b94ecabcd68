import Mathlib.Logic.Relation
import Mathlib.Data.List.Induction
import Mathlib.Data.Option.Basic

/-!
# Event machines

A concurrent program is modelled as a deterministic machine driven by *events*: the scheduler's
choice of who moves next, the answer of the network, the outcome of a system call.  All the
nondeterminism sits in the list of events, so a machine is an executable function and a concrete
run can be evaluated.

## Main definitions

* `Machine σ ε` : a partial step function; `step s e = none` says that `e` cannot happen in `s`.
* `Machine.exec` : run a list of events.
* `Machine.ReachesUnder P s₀ s` : `s` is reached from `s₀` by steps that all satisfy the side
  condition `P` (a predicate on the state before the step and the event).
* `Machine.Reaches` : the same without a side condition.
* `Machine.execUnder P` : `exec` of events that satisfy a decidable side condition.
* `Machine.ReachesUnder.invariant` : the induction rule for inductive invariants.
* `Machine.exec_invariant` : the one for invariants that speak of the events so far.
* `Machine.ReachesUnder.simulate` : states related by a simulation are reached together.
-/

namespace SwiftLoad

/-- A machine with states `σ` that reacts to events `ε`. -/
structure Machine (σ : Type*) (ε : Type*) where
  /-- The state after the event, or `none` when the event is impossible. -/
  step : σ → ε → Option σ

namespace Machine

variable {σ ε τ φ : Type*} (M : Machine σ ε)

/-- Run the events in order. -/
def exec : σ → List ε → Option σ
  | s, [] => some s
  | s, e :: es => (M.step s e).bind fun s' => exec s' es

/-- `s` is reached from `s₀` by steps whose source state and event satisfy `P`. -/
inductive ReachesUnder (P : σ → ε → Prop) (s₀ : σ) : σ → Prop
  | refl : ReachesUnder P s₀ s₀
  | tail {s s' : σ} {e : ε} :
      ReachesUnder P s₀ s → P s e → M.step s e = some s' → ReachesUnder P s₀ s'

/-- `s` is reached from `s₀` by some sequence of events. -/
abbrev Reaches (s₀ s : σ) : Prop := M.ReachesUnder (fun _ _ => True) s₀ s

variable {M}

@[simp] theorem exec_nil (s : σ) : M.exec s [] = some s := rfl

theorem exec_cons {s s' : σ} {e : ε} (h : M.step s e = some s') (es : List ε) :
    M.exec s (e :: es) = M.exec s' es := by
  simp only [exec, h, Option.bind_some]

theorem exec_append (s : σ) (es es' : List ε) :
    M.exec s (es ++ es') = (M.exec s es).bind fun t => M.exec t es' := by
  induction es generalizing s with
  | nil => rfl
  | cons e es ih =>
    rw [List.cons_append, exec, exec]
    cases M.step s e with
    | none => rfl
    | some t => exact ih t

/-- The induction rule for invariants that speak of the events so far. -/
theorem exec_invariant {I : List ε → σ → Prop} {s₀ s : σ} {es : List ε}
    (h : M.exec s₀ es = some s) (h₀ : I [] s₀)
    (hstep : ∀ es s e s', M.exec s₀ es = some s → I es s → M.step s e = some s' →
      I (es ++ [e]) s') : I es s := by
  induction es using List.reverseRecOn generalizing s with
  | nil => exact Option.some.inj h ▸ h₀
  | append_singleton es e ih =>
    rw [exec_append] at h
    obtain ⟨t, ht, hs⟩ := Option.bind_eq_some_iff.1 h
    obtain ⟨t', ht', hs⟩ := Option.bind_eq_some_iff.1 hs
    exact Option.some.inj hs ▸ hstep _ _ _ _ ht (ih ht) ht'

namespace ReachesUnder

variable {P Q : σ → ε → Prop} {s₀ s s' s'' : σ}

/-- Reachable states satisfy every predicate that holds initially and that every permitted
step preserves. -/
theorem invariant {I : σ → Prop} (h : M.ReachesUnder P s₀ s) (h₀ : I s₀)
    (hstep : ∀ s e s', I s → P s e → M.step s e = some s' → I s') : I s := by
  induction h with
  | refl => exact h₀
  | tail _ hp hst ih => exact hstep _ _ _ ih hp hst

/-- An invariant whose preservation rests on the states being reached. -/
theorem invariant_of_reached {I : σ → Prop} (h : M.ReachesUnder P s₀ s) (h₀ : I s₀)
    (hstep : ∀ s e s', M.ReachesUnder P s₀ s → I s → P s e → M.step s e = some s' → I s') :
    I s := by
  induction h with
  | refl => exact h₀
  | tail hs hp hst ih => exact hstep _ _ _ hs ih hp hst

theorem mono (h : M.ReachesUnder P s₀ s) (hPQ : ∀ s e, P s e → Q s e) :
    M.ReachesUnder Q s₀ s := by
  induction h with
  | refl => exact .refl
  | tail _ hp hst ih => exact ih.tail (hPQ _ _ hp) hst

theorem reaches (h : M.ReachesUnder P s₀ s) : M.Reaches s₀ s := h.mono fun _ _ _ => trivial

theorem trans (h : M.ReachesUnder P s₀ s) (h' : M.ReachesUnder P s s') :
    M.ReachesUnder P s₀ s' := by
  induction h' with
  | refl => exact h
  | tail _ hp hst ih => exact ih.tail hp hst

theorem single {e : ε} (hp : P s e) (h : M.step s e = some s') : M.ReachesUnder P s s' :=
  tail refl hp h

/-- A simulation carries reachability over: every permitted step of `M` from a state related
to `t` is answered by permitted steps of `N` that restore the relation. -/
theorem simulate {N : Machine τ φ} {Q : τ → φ → Prop} {R : σ → τ → Prop} {t₀ : τ}
    (h : M.ReachesUnder P s₀ s) (h₀ : R s₀ t₀)
    (hsim : ∀ s e s' t, R s t → P s e → M.step s e = some s' →
      ∃ t', N.ReachesUnder Q t t' ∧ R s' t') :
    ∃ t, N.ReachesUnder Q t₀ t ∧ R s t := by
  induction h with
  | refl => exact ⟨t₀, .refl, h₀⟩
  | tail _ hp hst ih =>
    obtain ⟨t, ht, hR⟩ := ih
    obtain ⟨t', ht', hR'⟩ := hsim _ _ _ _ hR hp hst
    exact ⟨t', ht.trans ht', hR'⟩

end ReachesUnder

/-- The states of an executed run of permitted events are reached. -/
theorem reachesUnder_of_exec {P : σ → ε → Prop} {s s' : σ} {es : List ε}
    (h : M.exec s es = some s') (hP : ∀ e ∈ es, ∀ s, P s e) : M.ReachesUnder P s s' := by
  induction es generalizing s with
  | nil =>
    simp only [exec_nil, Option.some.injEq] at h
    exact h ▸ .refl
  | cons e es ih =>
    obtain ⟨t, ht, h⟩ := Option.bind_eq_some_iff.1 h
    exact (ReachesUnder.single (hP e List.mem_cons_self s) ht).trans
      (ih h fun e he => hP e (List.mem_cons_of_mem _ he))

/-- Run the events in order, as long as each satisfies the side condition. -/
def execUnder (M : Machine σ ε) (P : σ → ε → Prop) [∀ s e, Decidable (P s e)] :
    σ → List ε → Option σ
  | s, [] => some s
  | s, e :: es => if P s e then (M.step s e).bind fun s' => execUnder M P s' es else none

theorem reachesUnder_of_execUnder {P : σ → ε → Prop} [∀ s e, Decidable (P s e)] {s s' : σ}
    {es : List ε} (h : M.execUnder P s es = some s') : M.ReachesUnder P s s' := by
  induction es generalizing s with
  | nil => exact Option.some.inj h ▸ .refl
  | cons e es ih =>
    simp only [execUnder] at h
    split at h
    · rename_i hP
      obtain ⟨t, ht, h⟩ := Option.bind_eq_some_iff.1 h
      exact (ReachesUnder.single hP ht).trans (ih h)
    · simp at h

theorem exec_of_execUnder {P : σ → ε → Prop} [∀ s e, Decidable (P s e)] {s s' : σ} {es : List ε}
    (h : M.execUnder P s es = some s') : M.exec s es = some s' := by
  induction es generalizing s with
  | nil => exact h
  | cons e es ih =>
    simp only [execUnder] at h
    split at h
    · obtain ⟨t, ht, h⟩ := Option.bind_eq_some_iff.1 h
      rw [exec_cons ht]
      exact ih h
    · simp at h

/-- The states of an executed run are reached. -/
theorem reaches_of_exec {s s' : σ} {es : List ε} (h : M.exec s es = some s') :
    M.Reaches s s' :=
  reachesUnder_of_exec h fun _ _ _ => trivial

end Machine

end SwiftLoad
