import Mathlib.Logic.Function.Basic
import SwiftLoad.Machine.Faults
import SwiftLoad.Util.Filename

/-!
# Publishing a download

`finalize` of `fsx/mod.rs` moves the part file to its final name.  With `overwrite`, it first
removes the file that has the name, and then renames the part file.  Each file operation takes
effect as a whole or not at all (`Program.statement`), but any of them can fail, and the process
can die before any of them.

* `AllOrNothing` : the destination holds the part file's content and the part is gone, or the
  destination is as it was and the part is still there.
* `finalize_allOrNothing_iff` : it holds except when the file that had the name has been removed and
  the rename does not get through.
-/

namespace SwiftLoad

namespace Publishing

variable {γ : Type}

/-- What a path names. -/
inductive Entry (γ : Type)
  | file (content : γ)
  | directory

/-- A file system. -/
abbrev FileSystem (γ : Type) := Path → Option (Entry γ)

/-- `io::ErrorKind`. -/
inductive IoError
  | notFound
  | alreadyExists
  | isADirectory
  | other
deriving DecidableEq, Repr

/-- `Path::exists`. -/
def pathExists (path : Path) (fs : FileSystem γ) : Bool := (fs path).isSome

/-- `fs::remove_file`. -/
def removeFile (path : Path) (fs : FileSystem γ) : Except IoError (Unit × FileSystem γ) :=
  match fs path with
  | some (.file _) => .ok ((), Function.update fs path none)
  | some .directory => .error .isADirectory
  | none => .error .notFound

/-- `fs::rename`: a file that has the new name is replaced. -/
def rename (src dst : Path) (fs : FileSystem γ) : Except IoError (Unit × FileSystem γ) :=
  match fs src, fs dst with
  | none, _ => .error .notFound
  | some (.file _), some .directory => .error .isADirectory
  | some .directory, some _ => .error .other
  | some entry, _ => .ok ((), Function.update (Function.update fs dst (some entry)) src none)

/-- `finalize`.  A check that cannot be made counts as a name that is free. -/
def finalize (part final : Path) (overwrite : Bool) :
    Program (Faulty (FileSystem γ)) (Abort IoError) Unit := do
  let taken ← (Program.statement IoError.other
    fun fs => .ok (pathExists final fs, fs)).unwrapOr false
  if taken then
    if !overwrite then throw (.failed .alreadyExists)
    Program.statement .other (removeFile final)
  Program.statement .other (rename part final)

/-- What publishing may leave behind. -/
def AllOrNothing (part final : Path) (before after : FileSystem γ) : Prop :=
  (after final = before part ∧ after part = none) ∨
    (after final = before final ∧ after part = before part)

variable {part final : Path} {overwrite : Bool} {fs : FileSystem γ} {content : γ}
  {faults : ℕ → Fault}

theorem allOrNothing_refl (part final : Path) (fs : FileSystem γ) :
    AllOrNothing part final fs fs := Or.inr ⟨rfl, rfl⟩

theorem rename_spec (hne : part ≠ final) (hpart : fs part = some (.file content))
    (hfinal : fs final ≠ some .directory) :
    ∃ after, rename part final fs = .ok ((), after) ∧ after final = some (.file content) ∧
      after part = none := by
  have hok : rename part final fs = .ok ((),
      Function.update (Function.update fs final (some (.file content))) part none) := by
    unfold rename
    rw [hpart]
    cases h : fs final with
    | none => rfl
    | some entry =>
      cases entry with
      | file _ => rfl
      | directory => exact absurd h hfinal
  refine ⟨_, hok, ?_, Function.update_self _ _ _⟩
  rw [Function.update_of_ne hne.symm, Function.update_self]

/-- The rename takes effect as a whole or not at all. -/
theorem rename_allOrNothing (hne : part ≠ final) (hpart : fs part = some (.file content)) :
    AllOrNothing part final fs
      ((Program.statement IoError.other (rename part final)).under fs faults).2 := by
  by_cases hfault : faults 0 = .nothing
  · rw [Program.under_statement hfault]
    by_cases hfinal : fs final = some .directory
    · have herr : rename part final fs = .error .isADirectory := by
        unfold rename
        rw [hpart, hfinal]
      rw [herr]
      exact allOrNothing_refl part final fs
    · obtain ⟨after, hok, hafter, hgone⟩ := rename_spec hne hpart hfinal
      rw [hok]
      exact Or.inl ⟨hafter.trans hpart.symm, hgone⟩
  · obtain ⟨e, he⟩ : ∃ e, (Program.statement IoError.other (rename part final)).under fs faults =
        (.error e, fs) := Program.under_statement_of_ne hfault
    rw [he]
    exact allOrNothing_refl part final fs

/-- The name is taken by a file, which is removed, and the rename does not get through. -/
structure Interrupted (final : Path) (overwrite : Bool) (fs : FileSystem γ) (faults : ℕ → Fault) :
    Prop where
  overwrite : overwrite = true
  taken : ∃ old, fs final = some (.file old)
  checked : faults 0 = .nothing
  removed : faults 1 = .nothing
  stopped : faults 2 ≠ .nothing

/-- The check comes first. -/
theorem under_finalize : (finalize part final overwrite).under fs faults =
    match faults 0 with
    | .crashes => (.error .crashed, fs)
    | .fails =>
      (Program.statement IoError.other (rename part final)).under fs fun n => faults (n + 1)
    | .nothing =>
      if (fs final).isSome then
        if overwrite then
          (Program.statement IoError.other (removeFile final) >>= fun _ =>
            Program.statement IoError.other (rename part final)).under fs fun n => faults (n + 1)
        else (.error (.failed .alreadyExists), fs)
      else
        (Program.statement IoError.other (rename part final)).under fs fun n => faults (n + 1) := by
  unfold finalize
  rw [Program.under_unwrapOr_bind]
  cases faults 0 with
  | crashes => rfl
  | fails => rfl
  | nothing =>
    dsimp only
    rw [pathExists]
    cases (fs final).isSome with
    | false => rfl
    | true => cases overwrite <;> rfl

/-- After the removal, only the rename brings the name back. -/
theorem remove_rename_allOrNothing_iff (hne : part ≠ final) (hpart : fs part = some (.file content))
    {old : γ} (hfinal : fs final = some (.file old)) :
    AllOrNothing part final fs ((Program.statement IoError.other (removeFile final) >>= fun _ =>
      Program.statement IoError.other (rename part final)).under fs faults).2 ↔
      ¬(faults 0 = .nothing ∧ faults 1 ≠ .nothing) := by
  by_cases hremove : faults 0 = .nothing
  · have hremoved : removeFile final fs = .ok ((), Function.update fs final none) := by
      unfold removeFile
      rw [hfinal]
    rw [Program.under_statement_bind hremove, hremoved]
    dsimp only
    have hpart' : Function.update fs final none part = some (.file content) := by
      rw [Function.update_of_ne hne, hpart]
    by_cases hrename : faults 1 = .nothing
    · refine iff_of_true ?_ fun h => h.2 hrename
      obtain ⟨after, hok, hafter, hgone⟩ := rename_spec hne hpart' (by simp)
      rw [Program.under_statement hrename, hok]
      exact Or.inl ⟨hafter.trans hpart.symm, hgone⟩
    · -- the part file is still there, but the name is free
      refine iff_of_false ?_ (not_not.2 ⟨hremove, hrename⟩)
      obtain ⟨e, he⟩ : ∃ e, (Program.statement IoError.other (rename part final)).under
          (Function.update fs final none) (fun n => faults (n + 1)) =
          (.error e, Function.update fs final none) := Program.under_statement_of_ne hrename
      rw [he]
      rintro (⟨h, -⟩ | ⟨h, -⟩)
      · simp [hpart] at h
      · simp [hfinal] at h
  · refine iff_of_true ?_ fun h => hremove h.1
    obtain ⟨e, he⟩ : ∃ e, (Program.statement IoError.other (removeFile final) >>= fun _ =>
        Program.statement IoError.other (rename part final)).under fs faults = (.error e, fs) :=
      Program.under_statement_bind_of_ne hremove
    rw [he]
    exact allOrNothing_refl part final fs

theorem remove_directory (hfinal : fs final = some .directory) :
    AllOrNothing part final fs ((Program.statement IoError.other (removeFile final) >>= fun _ =>
      Program.statement IoError.other (rename part final)).under fs faults).2 := by
  have hkept : ∃ e, (Program.statement IoError.other (removeFile final) >>= fun _ =>
      Program.statement IoError.other (rename part final)).under fs faults = (.error e, fs) := by
    by_cases hremove : faults 0 = .nothing
    · have herr : removeFile final fs = .error .isADirectory := by
        unfold removeFile
        rw [hfinal]
      exact ⟨_, by rw [Program.under_statement_bind hremove, herr]⟩
    · exact Program.under_statement_bind_of_ne hremove
  obtain ⟨e, he⟩ := hkept
  rw [he]
  exact allOrNothing_refl part final fs

/-- **Publishing.**  From every file system with a part file, under every choice of the operation
that fails or before which the process dies, publishing is all or nothing, except when it has
removed the file that had the name and the rename does not get through. -/
theorem finalize_allOrNothing_iff (overwrite : Bool) (faults : ℕ → Fault) (hne : part ≠ final)
    (hpart : fs part = some (.file content)) :
    AllOrNothing part final fs ((finalize part final overwrite).under fs faults).2 ↔
      ¬Interrupted final overwrite fs faults := by
  rw [under_finalize]
  cases hcheck : faults 0 with
  | crashes =>
    exact iff_of_true (allOrNothing_refl part final fs) fun h => by simp [h.checked] at hcheck
  | fails =>
    exact iff_of_true (rename_allOrNothing hne hpart) fun h => by simp [h.checked] at hcheck
  | nothing =>
    dsimp only
    cases hfinal : fs final with
    | none =>
      refine iff_of_true (rename_allOrNothing hne hpart) fun h => ?_
      obtain ⟨old, hold⟩ := h.taken
      simp [hold] at hfinal
    | some entry =>
      simp only [Option.isSome_some, if_true]
      cases hover : overwrite with
      | false =>
        refine iff_of_true (allOrNothing_refl part final fs) fun h => ?_
        exact absurd h.overwrite (by decide)
      | true =>
        simp only [if_true]
        cases entry with
        | file old =>
          rw [remove_rename_allOrNothing_iff hne hpart hfinal]
          exact not_congr ⟨fun h => ⟨rfl, ⟨old, hfinal⟩, hcheck, h.1, h.2⟩,
            fun h => ⟨h.removed, h.stopped⟩⟩
        | directory =>
          refine iff_of_true (remove_directory hfinal) fun h => ?_
          obtain ⟨old, hold⟩ := h.taken
          simp [hold] at hfinal

/-- The part file, and its final name. -/
def samplePart : Path := [.normal ['f', '.', 's', 'l', 'p', 'a', 'r', 't']]
def sampleFinal : Path := [.normal ['f']]

/-- A part file with content `1` and a file with content `0` under the final name. -/
def sampleFiles : FileSystem ℕ := fun path =>
  if path = samplePart then some (.file 1) else if path = sampleFinal then some (.file 0) else none

theorem samplePart_eq : sampleFiles samplePart = some (.file 1) := rfl

theorem finalize_allOrNothing_unharmed :
    AllOrNothing samplePart sampleFinal sampleFiles
      ((finalize samplePart sampleFinal true).under sampleFiles Program.noFaults).2 :=
  (finalize_allOrNothing_iff true Program.noFaults (by decide) samplePart_eq).2
    fun h => h.stopped rfl

/-- The process dies between the removal and the rename. -/
def diesBetween : ℕ → Fault := fun n => if n = 2 then .crashes else .nothing

theorem finalize_loses_name :
    ¬ ∀ (part final : Path) (fs : FileSystem ℕ) (content : ℕ) (overwrite : Bool)
      (faults : ℕ → Fault), part ≠ final → fs part = some (.file content) →
        AllOrNothing part final fs ((finalize part final overwrite).under fs faults).2 := by
  intro h
  have hall := h samplePart sampleFinal sampleFiles 1 true diesBetween (by decide) rfl
  rw [under_finalize] at hall
  have hold : sampleFiles sampleFinal = some (.file 0) := rfl
  refine (remove_rename_allOrNothing_iff (by decide) samplePart_eq hold).1 hall ⟨rfl, ?_⟩
  decide

end Publishing

end SwiftLoad
