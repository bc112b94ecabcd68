import Mathlib.Tactic.SplitIfs

/-!
# Imperative programs with errors

A sequential routine that updates a state and may fail is a `Program`: the exception monad over
the state monad, so that an error keeps the state it was raised in.  Partial correctness is stated
with triples that have two postconditions, one for a normal return and one for an error.

## Main definitions

* `Program σ ε α` : a program over states `σ` with errors `ε` and results `α`.
* `Program.runFrom` : run it.
* `Program.Triple P m Q E` : from a state with `P`, a normal return satisfies `Q` and an error
  satisfies `E`.
* `Program.Keeps I m` : `m` keeps `I`, however it ends.

The equations `runFrom_bind`, `runFrom_pure`, … evaluate a program, and the rules (`Triple.pure`,
`Triple.bind`, …) follow the syntax of a `do` block.
-/

namespace SwiftLoad

variable {σ ε ε' α β : Type}

/-- A program over states `σ` that returns an `α` or fails with an `ε`. -/
abbrev Program (σ ε α : Type) := ExceptT ε (StateM σ) α

namespace Program

/-- The outcome and the final state. -/
def runFrom (m : Program σ ε α) (s : σ) : Except ε α × σ := m.run s

/-- Another form of the errors. -/
def mapError (f : ε → ε') (m : Program σ ε α) : Program σ ε' α :=
  ExceptT.mk fun s => match m.runFrom s with
    | (.ok a, s') => (.ok a, s')
    | (.error e, s') => (.error (f e), s')

/-- A normal outcome satisfies `Q`, an error satisfies `E`. -/
def Ends (Q : α → σ → Prop) (E : ε → σ → Prop) : Except ε α × σ → Prop
  | (.ok a, s) => Q a s
  | (.error e, s) => E e s

/-- From a state with `P`, a normal return satisfies `Q` and an error satisfies `E`. -/
def Triple (P : σ → Prop) (m : Program σ ε α) (Q : α → σ → Prop) (E : ε → σ → Prop) : Prop :=
  ∀ s, P s → Ends Q E (m.runFrom s)

theorem runFrom_bind (m : Program σ ε α) (f : α → Program σ ε β) (s : σ) :
    (m >>= f).runFrom s = match m.runFrom s with
      | (.ok a, s') => (f a).runFrom s'
      | (.error e, s') => (.error e, s') := by
  change (match m.runFrom s with
    | (r, s') => (ExceptT.bindCont f r) s') = _
  rcases m.runFrom s with ⟨_ | _, s'⟩ <;> rfl

theorem runFrom_tryCatch (m : Program σ ε α) (f : ε → Program σ ε α) (s : σ) :
    (tryCatch m f).runFrom s = match m.runFrom s with
      | (.ok a, s') => (.ok a, s')
      | (.error e, s') => (f e).runFrom s' := by
  change (match m.runFrom s with
    | (r, s') => (match r with
      | .ok a => (Pure.pure (Except.ok a) : StateM σ (Except ε α))
      | .error e => f e) s') = _
  rcases m.runFrom s with ⟨_ | _, s'⟩ <;> rfl

theorem runFrom_mapError (f : ε → ε') (m : Program σ ε α) (s : σ) :
    (m.mapError f).runFrom s = match m.runFrom s with
      | (.ok a, s') => (.ok a, s')
      | (.error e, s') => (.error (f e), s') := rfl

section Run

variable {s : σ}

@[simp] theorem runFrom_pure (a : α) :
    (Pure.pure a : Program σ ε α).runFrom s = (.ok a, s) := rfl

@[simp] theorem runFrom_throw (e : ε) :
    (MonadExcept.throw e : Program σ ε α).runFrom s = (.error e, s) := rfl

@[simp] theorem runFrom_get : (MonadState.get : Program σ ε σ).runFrom s = (.ok s, s) := rfl

@[simp] theorem runFrom_modifyGet (g : σ → α × σ) :
    (MonadState.modifyGet g : Program σ ε α).runFrom s = (.ok (g s).1, (g s).2) := rfl

@[simp] theorem runFrom_modify (g : σ → σ) :
    (modify g : Program σ ε PUnit).runFrom s = (.ok ⟨⟩, g s) := rfl

theorem runFrom_map (f : α → β) (m : Program σ ε α) :
    (f <$> m).runFrom s = match m.runFrom s with
      | (.ok a, s') => (.ok (f a), s')
      | (.error e, s') => (.error e, s') := by
  rw [map_eq_pure_bind, runFrom_bind]
  rfl

end Run

namespace Triple

variable {P P' : σ → Prop} {Q Q' : α → σ → Prop} {R : β → σ → Prop} {E E' : ε → σ → Prop}
  {m m' : Program σ ε α} {f : α → Program σ ε β}

theorem pure {a : α} (h : ∀ s, P s → Q a s) : Triple P (Pure.pure a : Program σ ε α) Q E := h

theorem throw {e : ε} (h : ∀ s, P s → E e s) :
    Triple P (MonadExcept.throw e : Program σ ε α) Q E := h

theorem modifyGet {g : σ → α × σ} (h : ∀ s, P s → Q (g s).1 (g s).2) :
    Triple P (MonadState.modifyGet g : Program σ ε α) Q E := h

theorem modify {g : σ → σ} {Q : PUnit → σ → Prop} (h : ∀ s, P s → Q ⟨⟩ (g s)) :
    Triple P (MonadState.modifyGet fun s => (⟨⟩, g s) : Program σ ε PUnit) Q E := h

theorem bind (hm : Triple P m Q E) (hf : ∀ a, Triple (Q a) (f a) R E) :
    Triple P (m >>= f) R E := by
  intro s hs
  have hm := hm s hs
  rw [runFrom_bind]
  rcases h : m.runFrom s with ⟨e | a, s'⟩ <;> rw [h] at hm
  · exact hm
  · exact hf a s' hm

theorem conseq (hm : Triple P' m Q' E') (hP : ∀ s, P s → P' s) (hQ : ∀ a s, Q' a s → Q a s)
    (hE : ∀ e s, E' e s → E e s) : Triple P m Q E := by
  intro s hs
  have hm := hm s (hP s hs)
  rcases h : m.runFrom s with ⟨e | a, s'⟩ <;> rw [h] at hm
  · exact hE e s' hm
  · exact hQ a s' hm

/-- Reading the state: what follows may use that it is the current one. -/
theorem get_bind {f : σ → Program σ ε β} (h : ∀ s₀, Triple (fun s => P s ∧ s = s₀) (f s₀) R E) :
    Triple P (MonadState.get >>= f) R E :=
  bind (Q := fun a s => P s ∧ s = a) (fun _ hs => ⟨hs, rfl⟩) h

theorem pre (hm : Triple P' m Q E) (hP : ∀ s, P s → P' s) : Triple P m Q E :=
  hm.conseq hP (fun _ _ h => h) fun _ _ h => h

/-- Fix the state the program starts in. -/
theorem of_eq (h : ∀ s₀, P s₀ → Triple (· = s₀) m Q E) : Triple P m Q E :=
  fun s hs => h s hs s rfl

/-- A fact that does not speak of the state. -/
theorem of_and {φ : Prop} (h : φ → Triple P m Q E) : Triple (fun s => φ ∧ P s) m Q E :=
  fun s hs => h hs.1 s hs.2

theorem of_exists {ι : Type*} {P : ι → σ → Prop} (h : ∀ i, Triple (P i) m Q E) :
    Triple (fun s => ∃ i, P i s) m Q E :=
  fun s ⟨i, hs⟩ => h i s hs

theorem ite {c : Prop} [Decidable c] (h : c → Triple P m Q E) (h' : ¬c → Triple P m' Q E) :
    Triple P (if c then m else m') Q E := by
  split_ifs with hc
  · exact h hc
  · exact h' hc

theorem of_forall (hQ : ∀ a s, Q a s) (hE : ∀ e s, E e s) : Triple P m Q E := by
  intro s _
  rcases m.runFrom s with ⟨e | a, s'⟩
  · exact hE e s'
  · exact hQ a s'

/-- What holds of the final state however the program ends. -/
theorem final {φ : σ → Prop} (hm : Triple P m (fun _ => φ) fun _ => φ) {s : σ} (hs : P s) :
    φ (m.runFrom s).2 := by
  have hm := hm s hs
  rcases h : m.runFrom s with ⟨e | a, s'⟩ <;> rw [h] at hm <;> exact hm

/-- Continuations that agree where `m` can return may be exchanged. -/
theorem bind_congr {g : α → Program σ ε β} (hm : Triple P m Q E)
    (h : ∀ a s, Q a s → (f a).runFrom s = (g a).runFrom s) {s : σ} (hs : P s) :
    (m >>= f).runFrom s = (m >>= g).runFrom s := by
  have hm := hm s hs
  rw [runFrom_bind, runFrom_bind]
  rcases hr : m.runFrom s with ⟨e | a, s'⟩
  · rfl
  · rw [hr] at hm
    exact h a s' hm

/-- Continuations that agree everywhere may be exchanged. -/
theorem bind_congr' {g : α → Program σ ε β} (h : ∀ a s, (f a).runFrom s = (g a).runFrom s) (s : σ) :
    (m >>= f).runFrom s = (m >>= g).runFrom s :=
  bind_congr (P := fun _ => True) (Q := fun _ _ => True) (E := fun _ _ => True)
    (of_forall (fun _ _ => trivial) fun _ _ => trivial) (fun a s _ => h a s) trivial

theorem mapError {f : ε → ε'} {E' : ε' → σ → Prop}
    (hm : Triple P m Q fun e s => E' (f e) s) : Triple P (m.mapError f) Q E' := by
  intro s hs
  have hm := hm s hs
  rw [runFrom_mapError]
  rcases h : m.runFrom s with ⟨e | a, s'⟩ <;> rw [h] at hm <;> exact hm

/-- The errors of `m` are handled by `f`. -/
theorem tryCatch {f : ε → Program σ ε α} (hm : Triple P m Q E)
    (hf : ∀ e, Triple (E e) (f e) Q E') : Triple P (MonadExcept.tryCatch m f) Q E' := by
  intro s hs
  have hm := hm s hs
  rw [runFrom_tryCatch]
  rcases h : m.runFrom s with ⟨e | a, s'⟩ <;> rw [h] at hm
  · exact hf e s' hm
  · exact hm

end Triple

/-- From a state with `I` the program ends in one, normally or with an error. -/
def Keeps (I : σ → Prop) (m : Program σ ε α) : Prop := Triple I m (fun _ => I) fun _ => I

namespace Keeps

variable {I : σ → Prop} {m m' : Program σ ε α} {f : α → Program σ ε β}

theorem pure (a : α) : Keeps I (Pure.pure a : Program σ ε α) := Triple.pure fun _ h => h

theorem throw (e : ε) : Keeps I (MonadExcept.throw e : Program σ ε α) := Triple.throw fun _ h => h

theorem modify {g : σ → σ} (h : ∀ s, I s → I (g s)) :
    Keeps I (MonadState.modifyGet fun s => (⟨⟩, g s) : Program σ ε PUnit) := Triple.modify h

theorem bind (hm : Keeps I m) (hf : ∀ a, Keeps I (f a)) : Keeps I (m >>= f) := Triple.bind hm hf

/-- The state that is read satisfies the invariant. -/
theorem get_bind {f : σ → Program σ ε β} (h : ∀ s, I s → Keeps I (f s)) :
    Keeps I (MonadState.get >>= f) := by
  refine Triple.get_bind fun s => ?_
  rintro s' ⟨hs, rfl⟩
  exact h s' hs s' hs

theorem ite {c : Prop} [Decidable c] (h : c → Keeps I m) (h' : ¬c → Keeps I m') :
    Keeps I (if c then m else m') := Triple.ite h h'

theorem tryCatch {f : ε → Program σ ε α} (hm : Keeps I m) (hf : ∀ e, Keeps I (f e)) :
    Keeps I (MonadExcept.tryCatch m f) := Triple.tryCatch hm hf

/-- A fact about the result can be used in what follows. -/
theorem bind_of {φ : α → Prop} (hm : Keeps I m)
    (hφ : Triple (fun _ => True) m (fun a _ => φ a) fun _ _ => True)
    (hf : ∀ a, φ a → Keeps I (f a)) : Keeps I (m >>= f) := by
  intro s hs
  have hm := hm s hs
  have hφ := hφ s trivial
  rw [runFrom_bind]
  rcases h : m.runFrom s with ⟨e | a, s'⟩ <;> rw [h] at hm hφ
  · exact hm
  · exact hf a hφ s' hm

end Keeps

end Program

end SwiftLoad
