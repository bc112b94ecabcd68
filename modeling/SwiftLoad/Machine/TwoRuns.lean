import SwiftLoad.Machine.Program

/-!
# Two runs of a program

What an observer may not learn is stated with two runs: if they differ only in the secrets, they
agree on what the observer sees.  `Program.Alike` relates two programs that take related states to
related states and end alike, both normally or both with an error.  As for triples, the rules
follow the syntax of a `do` block.
-/

namespace SwiftLoad

namespace Program

variable {σ σ' ε ε' α α' β β' : Type}

/-- Two outcomes of one kind, with related results. -/
inductive EndAlike (Q : α → α' → Prop) (E : ε → ε' → Prop) : Except ε α → Except ε' α' → Prop
  | ok {a : α} {a' : α'} (h : Q a a') : EndAlike Q E (.ok a) (.ok a')
  | error {e : ε} {e' : ε'} (h : E e e') : EndAlike Q E (.error e) (.error e')

theorem EndAlike.symm {Q : α → α' → Prop} {E : ε → ε' → Prop} {r : Except ε α}
    {r' : Except ε' α'} (h : EndAlike Q E r r') :
    EndAlike (fun a' a => Q a a') (fun e' e => E e e') r' r := by
  cases h with
  | ok h => exact .ok h
  | error h => exact .error h

theorem EndAlike.mono {Q Q' : α → α' → Prop} {E E' : ε → ε' → Prop} {r : Except ε α}
    {r' : Except ε' α'} (h : EndAlike Q E r r') (hQ : ∀ a a', Q a a' → Q' a a')
    (hE : ∀ e e', E e e' → E' e e') : EndAlike Q' E' r r' := by
  cases h with
  | ok h => exact .ok (hQ _ _ h)
  | error h => exact .error (hE _ _ h)

/-- From states related by `R`, the programs end alike and in states related by `R`. -/
def Alike (R : σ → σ' → Prop) (Q : α → α' → Prop) (E : ε → ε' → Prop) (m : Program σ ε α)
    (m' : Program σ' ε' α') : Prop :=
  ∀ s s', R s s' → EndAlike Q E (m.runFrom s).1 (m'.runFrom s').1 ∧
    R (m.runFrom s).2 (m'.runFrom s').2

namespace Alike

variable {R : σ → σ' → Prop} {Q : α → α' → Prop} {S : β → β' → Prop} {E : ε → ε' → Prop}
  {m : Program σ ε α} {m' : Program σ' ε' α'}

theorem pure {a : α} {a' : α'} (h : Q a a') :
    Alike R Q E (Pure.pure a : Program σ ε α) (Pure.pure a' : Program σ' ε' α') :=
  fun _ _ hs => ⟨.ok h, hs⟩

theorem throw {e : ε} {e' : ε'} (h : E e e') :
    Alike R Q E (MonadExcept.throw e : Program σ ε α) (MonadExcept.throw e' : Program σ' ε' α') :=
  fun _ _ hs => ⟨.error h, hs⟩

theorem modify {g : σ → σ} {g' : σ' → σ'} {Q : PUnit → PUnit → Prop} (hQ : Q ⟨⟩ ⟨⟩)
    (h : ∀ s s', R s s' → R (g s) (g' s')) :
    Alike R Q E (MonadState.modifyGet fun s => (⟨⟩, g s) : Program σ ε PUnit)
      (MonadState.modifyGet fun s => (⟨⟩, g' s) : Program σ' ε' PUnit) :=
  fun s s' hs => ⟨.ok hQ, h s s' hs⟩

theorem bind {f : α → Program σ ε β} {f' : α' → Program σ' ε' β'} (hm : Alike R Q E m m')
    (hf : ∀ a a', Q a a' → Alike R S E (f a) (f' a')) : Alike R S E (m >>= f) (m' >>= f') := by
  intro s s' hs
  obtain ⟨hend, hs'⟩ := hm s s' hs
  rw [runFrom_bind, runFrom_bind]
  rcases hr : m.runFrom s with ⟨r, t⟩
  rcases hr' : m'.runFrom s' with ⟨r', t'⟩
  rw [hr, hr'] at hend hs'
  cases hend with
  | ok h => exact hf _ _ h t t' hs'
  | error h => exact ⟨.error h, hs'⟩

/-- Reading the states: what follows sees two related ones. -/
theorem get_bind {f : σ → Program σ ε β} {f' : σ' → Program σ' ε' β'}
    (h : ∀ s s', R s s' → Alike R S E (f s) (f' s')) :
    Alike R S E (MonadState.get >>= f) (MonadState.get >>= f') :=
  bind (Q := R) (fun _ _ hs => ⟨.ok hs, hs⟩) h

theorem mapError {ε₁ ε₁' : Type} {E₁ : ε₁ → ε₁' → Prop} {f : ε → ε₁} {f' : ε' → ε₁'}
    (hm : Alike R Q E m m') (hf : ∀ e e', E e e' → E₁ (f e) (f' e')) :
    Alike R Q E₁ (m.mapError f) (m'.mapError f') := by
  intro s s' hs
  obtain ⟨hend, hs'⟩ := hm s s' hs
  rw [runFrom_mapError, runFrom_mapError]
  rcases hr : m.runFrom s with ⟨r, t⟩
  rcases hr' : m'.runFrom s' with ⟨r', t'⟩
  rw [hr, hr'] at hend hs'
  cases hend with
  | ok h => exact ⟨.ok h, hs'⟩
  | error h => exact ⟨.error (hf _ _ h), hs'⟩

theorem ite {c c' : Prop} [Decidable c] [Decidable c'] {n : Program σ ε α} {n' : Program σ' ε' α'}
    (hc : c ↔ c') (h : c → Alike R Q E m m') (h' : ¬c → Alike R Q E n n') :
    Alike R Q E (if c then m else n) (if c' then m' else n') := by
  by_cases hcase : c
  · rw [if_pos hcase, if_pos (hc.1 hcase)]
    exact h hcase
  · rw [if_neg hcase, if_neg (mt hc.2 hcase)]
    exact h' hcase

end Alike

end Program

end SwiftLoad
