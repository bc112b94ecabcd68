import Mathlib.Data.Nat.Notation
import SwiftLoad.Machine.Program

/-!
# Programs whose statements can fail

A program over a store is a sequence of *statements*.  Each one takes effect as a whole or not at
all, but between two of them anything can go wrong: the next one fails although nothing about the
store forbids it, or the process dies.  A `Fault` says which, and the faults that lie ahead are
part of the state, so that a run under them can be evaluated.

## Main definitions

* `Program.statement` : one statement; it takes the next fault.
* `Program.unwrapOr` : a default in place of a failure.  A crash has no default.
* `Program.under` : the outcome and the store under given faults.
* `Program.uncrashed` : the outcome of a plain program, to compare a run without faults with.
-/

namespace SwiftLoad

/-- What happens to a statement. -/
inductive Fault
  | nothing
  /-- It fails for a reason the store does not show. -/
  | fails
  /-- The process dies before it. -/
  | crashes
deriving DecidableEq, Repr

/-- How a program ends early. -/
inductive Abort (ε : Type)
  | failed (e : ε)
  | crashed
deriving DecidableEq, Repr

/-- A store and the faults ahead. -/
structure Faulty (σ : Type) where
  store : σ
  faults : ℕ → Fault

variable {σ ε α β : Type}

namespace Program

/-- A statement: what it reads and the store it leaves, or the error of one that cannot be carried
out.  `failure` is the error of one that is made to fail. -/
def statement (failure : ε) (body : σ → Except ε (α × σ)) : Program (Faulty σ) (Abort ε) α :=
  ExceptT.mk fun s =>
    let ahead := fun n => s.faults (n + 1)
    match s.faults 0 with
    | .crashes => (.error .crashed, ⟨s.store, ahead⟩)
    | .fails => (.error (.failed failure), ⟨s.store, ahead⟩)
    | .nothing => match body s.store with
      | .error e => (.error (.failed e), ⟨s.store, ahead⟩)
      | .ok (a, store) => (.ok a, ⟨store, ahead⟩)

/-- `Result::unwrap_or`. -/
def unwrapOr (a : α) (m : Program (Faulty σ) (Abort ε) α) : Program (Faulty σ) (Abort ε) α :=
  tryCatch m fun e => match e with
    | .failed _ => pure a
    | .crashed => throw .crashed

/-- The outcome and the store it leaves. -/
def under (m : Program (Faulty σ) (Abort ε) α) (s : σ) (faults : ℕ → Fault) :
    Except (Abort ε) α × σ :=
  ((m.runFrom ⟨s, faults⟩).1, (m.runFrom ⟨s, faults⟩).2.store)

section Under

variable {failure : ε} {body : σ → Except ε (α × σ)} {s : σ} {faults : ℕ → Fault}
  {f : α → Program (Faulty σ) (Abort ε) β} {a : α}

theorem runFrom_statement : (statement failure body).runFrom ⟨s, faults⟩ =
    match faults 0 with
    | .crashes => (.error .crashed, ⟨s, fun n => faults (n + 1)⟩)
    | .fails => (.error (.failed failure), ⟨s, fun n => faults (n + 1)⟩)
    | .nothing => match body s with
      | .error e => (.error (.failed e), ⟨s, fun n => faults (n + 1)⟩)
      | .ok (a, store) => (.ok a, ⟨store, fun n => faults (n + 1)⟩) := rfl

/-- A statement that nothing happens to. -/
theorem under_statement (h : faults 0 = .nothing) : (statement failure body).under s faults =
    match body s with
    | .error e => (.error (.failed e), s)
    | .ok (a, store) => (.ok a, store) := by
  unfold under
  rw [runFrom_statement, h]
  cases body s <;> rfl

/-- A statement that does not get through leaves the store as it was. -/
theorem under_statement_of_ne (h : faults 0 ≠ .nothing) :
    ∃ e, (statement failure body).under s faults = (.error e, s) := by
  unfold under
  rw [runFrom_statement]
  cases hf : faults 0 with
  | nothing => exact absurd hf h
  | fails => exact ⟨_, rfl⟩
  | crashes => exact ⟨_, rfl⟩

/-- The first statement of a program that nothing happens to. -/
theorem under_statement_bind (h : faults 0 = .nothing) :
    (statement failure body >>= f).under s faults =
      match body s with
      | .error e => (.error (.failed e), s)
      | .ok (a, store) => (f a).under store fun n => faults (n + 1) := by
  unfold under
  rw [runFrom_bind, runFrom_statement, h]
  cases body s <;> rfl

/-- A program whose first statement does not get through ends there. -/
theorem under_statement_bind_of_ne (h : faults 0 ≠ .nothing) :
    ∃ e, (statement failure body >>= f).under s faults = (.error e, s) := by
  unfold under
  rw [runFrom_bind, runFrom_statement]
  cases hf : faults 0 with
  | nothing => exact absurd hf h
  | fails => exact ⟨_, rfl⟩
  | crashes => exact ⟨_, rfl⟩

/-- A query with a default. -/
theorem under_unwrapOr_bind {query : σ → α} :
    (unwrapOr a (statement failure fun s => .ok (query s, s)) >>= f).under s faults =
      match faults 0 with
      | .nothing => (f (query s)).under s fun n => faults (n + 1)
      | .fails => (f a).under s fun n => faults (n + 1)
      | .crashes => (.error .crashed, s) := by
  unfold under unwrapOr
  rw [runFrom_bind, runFrom_tryCatch, runFrom_statement]
  cases faults 0 <;> rfl

end Under

section Rules

variable {failure : ε} {body : σ → Except ε (α × σ)} {I : σ → Prop}

/-- A statement that does not get through leaves the store as it was. -/
theorem Keeps.statement (h : ∀ s a s', I s → body s = .ok (a, s') → I s') :
    Keeps (fun s : Faulty σ => I s.store) (Program.statement failure body) := by
  rintro ⟨s, faults⟩ hs
  rw [runFrom_statement]
  cases faults 0 with
  | crashes => exact hs
  | fails => exact hs
  | nothing =>
    cases hbody : body s with
    | error e => exact hs
    | ok r => exact h s r.1 r.2 hs hbody

theorem Keeps.unwrapOr {I : Faulty σ → Prop} {m : Program (Faulty σ) (Abort ε) α}
    (h : Keeps I m) (a : α) : Keeps I (Program.unwrapOr a m) := by
  refine Keeps.tryCatch h fun e => ?_
  cases e with
  | failed e => exact Keeps.pure a
  | crashed => exact Keeps.throw _

end Rules

/-! ### Without faults -/

/-- No fault lies ahead. -/
def noFaults : ℕ → Fault := fun _ => .nothing

/-- The outcome of a plain program, as one that could have crashed. -/
def uncrashed : Except ε α × σ → Except (Abort ε) α × σ
  | (.ok a, s) => (.ok a, s)
  | (.error e, s) => (.error (.failed e), s)

end Program

end SwiftLoad
