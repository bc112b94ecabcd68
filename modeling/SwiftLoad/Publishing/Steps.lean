import SwiftLoad.Publishing.Collision

/-!
# Publishing, one operation at a time

`publish` is one program.  Here it is cut into its operations on the file system, so that other
downloads can act in between: the looks of `dedupe` at one name after the other, and the check and
the rename of `finalize`.  Only publishing that may not overwrite is cut up.

* `Publication.step` : the next operation.
* `Publication.ends_publish` : **undisturbed, the operations of a publishing are `publish`.**
-/

namespace SwiftLoad

namespace Publishing

open Filename

variable {γ : Type}

/-- What a publishing does next. -/
inductive Stage
  /-- `dedupe` looks at `name`; `names` are to come. -/
  | looks (name : Name) (names : List Name)
  /-- `finalize` looks at the name once more. -/
  | checks (name : Name)
  /-- `finalize` renames the part file. -/
  | renames (name : Name)
  | ended (r : Except (Abort IoError) Path)

/-- The search goes on with the next name, or ends with the last resort. -/
def Stage.search (last : Name) : List Name → Stage
  | [] => .checks last
  | name :: names => .looks name names

/-- A publishing. -/
structure Publication where
  here : List Name
  dir : Path
  /-- Where the part file is. -/
  part : Path
  last : Name
  stage : Stage

namespace Publication

/-- The end of `download`, before its first operation. -/
def new (here : List Name) (destDir : Path) (filename : Name) (policy : CollisionPolicy)
    (uuid : Name) : Publication where
  here := here
  dir := normalizeLexically destDir
  part := partOf here destDir filename
  last := fallbackName (sanitize filename) uuid policy
  stage := .search (fallbackName (sanitize filename) uuid policy)
    (tried (sanitize filename) policy)

/-- Where a name stands. -/
def place (p : Publication) (name : Name) : Path := locate p.here (join p.dir name)

/-- The next operation.  A look that fails counts as a name that is free. -/
def step (fault : Fault) (fs : FileSystem γ) (p : Publication) : FileSystem γ × Stage :=
  match p.stage, fault with
  | .ended r, _ => (fs, .ended r)
  | .looks name names, .nothing =>
    (fs, if pathExists (p.place name) fs then .search p.last names else .checks name)
  | .looks name _, .fails => (fs, .checks name)
  | .checks name, .nothing =>
    (fs, if pathExists (p.place name) fs then .ended (.error (.failed .alreadyExists))
      else .renames name)
  | .checks name, .fails => (fs, .renames name)
  | .renames name, .nothing =>
    match rename p.part (p.place name) fs with
    | .ok (_, fs') => (fs', .ended (.ok (join p.dir name)))
    | .error e => (fs, .ended (.error (.failed e)))
  | .renames _, .fails => (fs, .ended (.error (.failed .other)))
  | _, .crashes => (fs, .ended (.error .crashed))

/-- So many operations in a row. -/
def run : ℕ → (ℕ → Fault) → FileSystem γ → Publication → FileSystem γ × Stage
  | 0, _, fs, p => (fs, p.stage)
  | n + 1, faults, fs, p =>
    run n (fun k => faults (k + 1)) (p.step (faults 0) fs).1
      { p with stage := (p.step (faults 0) fs).2 }

/-- The operations that are left come to this outcome. -/
def Ends (p : Publication) (faults : ℕ → Fault) (fs : FileSystem γ)
    (x : Except (Abort IoError) Path × FileSystem γ) : Prop :=
  ∃ n, p.run n faults fs = (x.2, .ended x.1)

variable {p : Publication} {fs fs' : FileSystem γ} {faults : ℕ → Fault} {stage : Stage}
  {name : Name} {names : List Name}

theorem Ends.of_ended {r : Except (Abort IoError) Path}
    (h : p.step (faults 0) fs = (fs', .ended r)) : p.Ends faults fs (r, fs') :=
  ⟨1, by rw [run, h, run]⟩

theorem Ends.of_step {x : Except (Abort IoError) Path × FileSystem γ}
    (h : p.step (faults 0) fs = (fs', stage))
    (hrest : { p with stage := stage }.Ends (fun k => faults (k + 1)) fs' x) :
    p.Ends faults fs x := by
  obtain ⟨n, hn⟩ := hrest
  refine ⟨n + 1, ?_⟩
  rw [run, h]
  exact hn

/-- What the last operation of `finalize` leaves is what the publishing leaves. -/
def returns (p : Publication) (name : Name)
    (x : Except (Abort IoError) Unit × FileSystem γ) :
    Except (Abort IoError) Path × FileSystem γ :=
  (x.1.map fun _ => join p.dir name, x.2)

/-- From the rename on. -/
theorem ends_renames (hstage : p.stage = .renames name) :
    p.Ends faults fs (p.returns name
      ((Program.statement IoError.other (rename p.part (p.place name))).under fs faults)) := by
  unfold Program.under
  rw [Program.runFrom_statement]
  cases hfault : faults 0 with
  | crashes => exact .of_ended (by simp [step, hstage, hfault, Except.map])
  | fails => exact .of_ended (by simp [step, hstage, hfault, Except.map])
  | nothing =>
    cases hren : rename p.part (p.place name) fs with
    | error e => exact .of_ended (by simp [step, hstage, hfault, hren, Except.map])
    | ok r => exact .of_ended (by simp [step, hstage, hfault, hren, Except.map])

/-- From the check on. -/
theorem ends_checks (hstage : p.stage = .checks name) :
    p.Ends faults fs (p.returns name
      ((finalize p.part (p.place name) false).under fs faults)) := by
  have hrename : { p with stage := .renames name }.Ends (fun n => faults (n + 1)) fs
      (p.returns name ((Program.statement IoError.other (rename p.part (p.place name))).under fs
        fun n => faults (n + 1))) :=
    ends_renames (p := { p with stage := .renames name }) rfl
  rw [under_finalize]
  cases hfault : faults 0 with
  | crashes => exact .of_ended (by simp [step, hstage, hfault, Except.map])
  | fails => exact .of_step (by simp [step, hstage, hfault]) hrename
  | nothing =>
    dsimp only
    by_cases htaken : (fs (p.place name)).isSome = true
    · rw [if_pos htaken]
      exact .of_ended (by simp [step, hstage, hfault, pathExists, htaken, Except.map])
    · rw [if_neg htaken]
      exact .of_step (by simp [step, hstage, hfault, pathExists, htaken]) hrename

/-- From the search on. -/
theorem ends_search (names : List Name) (hstage : p.stage = .search p.last names) :
    p.Ends faults fs ((settle p.here p.dir p.part names p.last).under fs faults) := by
  induction names generalizing p faults with
  | nil =>
    have hlast : (settle p.here p.dir p.part [] p.last :
        Program (Faulty (FileSystem γ)) (Abort IoError) Path) = (do
          finalize p.part (locate p.here (join p.dir p.last)) false
          return join p.dir p.last) := by
      simp only [settle, firstFree, pure_bind, Option.getD_none]
    rw [hlast, finalize_return]
    exact ends_checks hstage
  | cons name names ih =>
    have hcheck : { p with stage := .checks name }.Ends (fun n => faults (n + 1)) fs
        (p.returns name ((finalize p.part (p.place name) false).under fs
          fun n => faults (n + 1))) :=
      ends_checks (p := { p with stage := .checks name }) rfl
    have hlook : p.stage = .looks name names := hstage
    rw [settle_cons_run]
    cases hfault : faults 0 with
    | crashes => exact .of_ended (by simp [step, hlook, hfault])
    | fails =>
      rw [finalize_return]
      exact .of_step (by simp [step, hlook, hfault]) hcheck
    | nothing =>
      dsimp only
      by_cases htaken : (fs (locate p.here (join p.dir name))).isSome = true
      · rw [if_pos htaken]
        have hnext : p.step (faults 0) fs = (fs, .search p.last names) := by
          simp [step, hlook, hfault, pathExists, place, htaken]
        exact .of_step hnext (ih (p := { p with stage := .search p.last names }) rfl)
      · rw [if_neg htaken, finalize_return]
        exact .of_step (by simp [step, hlook, hfault, pathExists, place, htaken]) hcheck

/-- **Undisturbed operations.**  Whichever of them fail, the operations of a publishing come to the
outcome of `publish` when nobody acts in between. -/
theorem ends_publish {policy : CollisionPolicy} (hpolicy : policy ≠ .overwrite) (here : List Name)
    (destDir : Path) (filename uuid : Name) (faults : ℕ → Fault) (fs : FileSystem γ) :
    (new here destDir filename policy uuid).Ends faults fs
      ((publish here destDir filename policy uuid).under fs faults) := by
  rw [publish_eq hpolicy]
  exact ends_search (p := new here destDir filename policy uuid) _ rfl

end Publication

end Publishing

end SwiftLoad
