import SwiftLoad.Machine.Basic
import SwiftLoad.Publishing.Steps

/-!
# Downloads that share a file system

Any number of downloads, in any directories and with any names, whose operations on the file system
come in any order: writes to part files, and the looks, the checks and the renames of publishings.
Two downloads may have the same part file, and a name that ends in `.slpart` may be published too.

* `Folder.unseen` : what a publishing may run into: a file that came under its name after the check,
  or that a failed check did not see.
* `Folder.Tracks` : the invariant of all runs: there is such a file exactly when it is noted.
* `Step` : what one operation changes otherwise.
* `exists_undisturbed` : the operations of one publishing, without others in between, are `publish`.
* `folder_loses_nothing` : **no run replaces a file or loses one that was published, as long as
  nobody renames onto an unseen file.**
* `race_replaces` : two downloads that check one name before either renames.
-/

namespace SwiftLoad

namespace Publishing

open Filename

variable {γ : Type}

/-- The path ends as part files do. -/
def PartPath (p : Path) : Prop :=
  ∃ dir name, p = dir ++ [.normal (name ++ ['.', 's', 'l', 'p', 'a', 'r', 't'])]

theorem partPath_partOf (here : List Name) (destDir : Path) (filename : Name) :
    PartPath (partOf here destDir filename) := by
  refine ⟨.rootDir :: (resolveFrom here destDir).map .normal, sanitize filename, ?_⟩
  rw [partOf, partPath, locate_join]
  simp

/-- The publishing is about to take the name `final`. -/
def Publication.takes (final : Path) (p : Publication) : Bool :=
  match p.stage with
  | .renames name => decide (p.place name = final)
  | _ => false

/-- The file system, the publishings, and what is to be known about them. -/
structure Folder (γ : Type) where
  files : FileSystem γ
  publications : ℕ → Option Publication
  /-- The name that the publishing is about to take has a file that its check has not seen. -/
  unseen : ℕ → Bool
  /-- The files that were published, in order. -/
  published : List (Path × γ)

/-- What can happen. -/
inductive FolderEvent (γ : Type)
  /-- A part file is created, or written to. -/
  | writes (here : List Name) (destDir : Path) (filename : Name) (content : γ)
  /-- A download comes to its end, and may not overwrite. -/
  | begins (i : ℕ) (here : List Name) (destDir : Path) (filename : Name)
      (policy : CollisionPolicy) (uuid : Name)
  /-- The next operation of a publishing. -/
  | acts (i : ℕ) (fault : Fault)

namespace Folder

/-- What is known after an operation of a publishing that leads to `stage`. -/
def note (s : Folder γ) (i : ℕ) (p : Publication) (stage : Stage) : Folder γ :=
  match p.stage, stage with
  | .checks name, .renames _ =>
    { s with unseen := Function.update s.unseen i (pathExists (p.place name) s.files) }
  | .renames name, .ended (.ok _) =>
    { s with
      unseen := fun j => s.unseen j || (s.publications j).any (·.takes (p.place name))
      published := match s.files p.part with
        | some (.file content) => s.published ++ [(p.place name, content)]
        | _ => s.published }
  | _, _ => s

/-- The next operation of a publishing. -/
def act (s : Folder γ) (i : ℕ) (fault : Fault) (p : Publication) : Folder γ :=
  { s.note i p (p.step fault s.files).2 with
    files := (p.step fault s.files).1
    publications := Function.update s.publications i
      (some { p with stage := (p.step fault s.files).2 }) }

/-- One operation. -/
def step (s : Folder γ) : FolderEvent γ → Option (Folder γ)
  | .writes here destDir filename content =>
    some { s with
      files := Function.update s.files (partOf here destDir filename) (some (.file content)) }
  | .begins i here destDir filename policy uuid =>
    if (s.publications i).isSome ∨ policy = .overwrite then none
    else some { s with
      publications := Function.update s.publications i
        (some (.new here destDir filename policy uuid)) }
  | .acts i fault => (s.publications i).map (s.act i fault)

/-- Nobody renames a part file onto a file that the check has not seen. -/
def sighted (s : Folder γ) : FolderEvent γ → Bool
  | .acts i .nothing => (s.publications i).all fun p =>
    match p.stage with
    | .renames _ => !s.unseen i
    | _ => true
  | _ => true

/-- No download has come to its end. -/
def start (fs₀ : FileSystem γ) : Folder γ := ⟨fs₀, fun _ => none, fun _ => false, []⟩

end Folder

/-- The downloads as an event machine. -/
def folderMachine : Machine (Folder γ) (FolderEvent γ) := ⟨Folder.step⟩

variable {fs fs' fs₀ : FileSystem γ} {s s' : Folder γ} {e : FolderEvent γ} {log : List (Path × γ)}

/-! ### What one operation does -/

theorem rename_cases {part final : Path} (h : rename part final fs = .ok ((), fs')) :
    ∃ entry, fs part = some entry ∧ (entry = .directory → fs final = none) ∧
      fs' = Function.update (Function.update fs final (some entry)) part none := by
  unfold rename at h
  cases hpart : fs part with
  | none =>
    rw [hpart] at h
    cases h
  | some entry =>
    rw [hpart] at h
    refine ⟨entry, rfl, ?_, ?_⟩
    · rintro rfl
      cases hfinal : fs final with
      | none => rfl
      | some other =>
        rw [hfinal] at h
        cases h
    · cases entry <;> cases hfinal : fs final <;> rw [hfinal] at h
      · exact (Prod.mk.inj (Except.ok.inj h)).2.symm
      · rename_i content other
        cases other with
        | file old => exact (Prod.mk.inj (Except.ok.inj h)).2.symm
        | directory => cases h
      · exact (Prod.mk.inj (Except.ok.inj h)).2.symm
      · cases h

/-- The outcomes of an operation of a publishing. -/
inductive Publication.Stepped (p : Publication) (fs : FileSystem γ) :
    Fault → FileSystem γ × Stage → Prop
  | stays (fault : Fault) (stage : Stage) (hstage : ∀ name, stage ≠ .renames name)
      (hended : ∀ name, p.stage = .renames name → ∀ final, stage ≠ .ended (.ok final)) :
      Stepped p fs fault (fs, stage)
  | checks (fault : Fault) (name : Name) (hstage : p.stage = .checks name) :
      Stepped p fs fault (fs, .renames name)
  | renames (name : Name) (fs' : FileSystem γ) (hstage : p.stage = .renames name)
      (hren : rename p.part (p.place name) fs = .ok ((), fs')) :
      Stepped p fs .nothing (fs', .ended (.ok (join p.dir name)))

theorem Stage.search_ne_renames (last : Name) (names : List Name) (name : Name) :
    Stage.search last names ≠ .renames name := by
  cases names <;> simp [Stage.search]

theorem Publication.stepped (p : Publication) (fault : Fault) (fs : FileSystem γ) :
    p.Stepped fs fault (p.step fault fs) := by
  have hstays : (∀ name, p.stage ≠ .renames name) → ∀ stage, (∀ name, stage ≠ .renames name) →
      p.Stepped fs fault (fs, stage) :=
    fun hp stage h => .stays fault stage h fun name hname => absurd hname (hp name)
  unfold step
  cases hstage : p.stage with
  | ended r => exact hstays (by simp [hstage]) _ (by simp)
  | looks name names =>
    have hstays' := hstays (by simp [hstage])
    cases fault with
    | crashes => exact hstays' _ (by simp)
    | fails => exact hstays' _ (by simp)
    | nothing =>
      refine hstays' _ fun name' => ?_
      split_ifs
      · exact Stage.search_ne_renames _ _ _
      · simp
  | checks name =>
    have hstays' := hstays (by simp [hstage])
    cases fault with
    | crashes => exact hstays' _ (by simp)
    | fails => exact .checks _ name hstage
    | nothing =>
      dsimp only
      split_ifs
      · exact hstays' _ (by simp)
      · exact .checks _ name hstage
  | renames name =>
    cases fault with
    | crashes => exact .stays _ _ (by simp) (by simp)
    | fails => exact .stays _ _ (by simp) (by simp)
    | nothing =>
      dsimp only
      cases hren : rename p.part (p.place name) fs with
      | error e => exact .stays _ _ (by simp) (by simp)
      | ok r => exact .renames name r.2 hstage hren

/-! ### One publishing alone -/

/-- Operations of one publishing, without others in between. -/
def undisturbed (i n : ℕ) (faults : ℕ → Fault) : List (FolderEvent γ) :=
  (List.range n).map fun k => .acts i (faults k)

theorem exec_undisturbed {i : ℕ} {p : Publication} (hp : s.publications i = some p) (n : ℕ)
    (faults : ℕ → Fault) :
    ∃ s' q, folderMachine.exec s (undisturbed i n faults) = some s' ∧
      s'.publications i = some q ∧ (s'.files, q.stage) = p.run n faults s.files := by
  induction n generalizing s p faults with
  | zero => exact ⟨s, p, rfl, hp, rfl⟩
  | succ n ih =>
    have hfirst : folderMachine.step s (.acts i (faults 0)) = some (s.act i (faults 0) p) := by
      simp only [folderMachine, Folder.step, hp, Option.map_some]
    have hrest : undisturbed (γ := γ) i (n + 1) faults =
        .acts i (faults 0) :: undisturbed i n fun k => faults (k + 1) := by
      simp [undisturbed, List.range_succ_eq_map, Function.comp_def]
    obtain ⟨s', q, hexec, hq, hrun⟩ := ih (s := s.act i (faults 0) p)
      (Function.update_self i _ s.publications) fun k => faults (k + 1)
    exact ⟨s', q, by rw [hrest, Machine.exec_cons hfirst, hexec], hq, hrun⟩

/-- Without others in between, the operations of a publishing do what `publish` does. -/
theorem exists_undisturbed {i : ℕ} {here : List Name} {destDir : Path} {filename uuid : Name}
    {policy : CollisionPolicy} (hpolicy : policy ≠ .overwrite)
    (hp : s.publications i = some (.new here destDir filename policy uuid))
    (faults : ℕ → Fault) :
    ∃ n s' q, folderMachine.exec s (undisturbed i n faults) = some s' ∧
      s'.publications i = some q ∧ (s'.files, q.stage) =
        (((publish here destDir filename policy uuid).under s.files faults).2,
          .ended ((publish here destDir filename policy uuid).under s.files faults).1) := by
  obtain ⟨n, hn⟩ := Publication.ends_publish hpolicy here destDir filename uuid faults s.files
  obtain ⟨s', q, hexec, hq, hrun⟩ := exec_undisturbed hp n faults
  exact ⟨n, s', q, hexec, hq, hrun.trans hn⟩

/-! ### What is noted -/

/-- The part files of publishings are named so, and a name that is about to be taken has a file
exactly when it is noted, unless it is the name of a part file. -/
structure Folder.Tracks (s : Folder γ) : Prop where
  parts : ∀ i p, s.publications i = some p → PartPath p.part
  unseen : ∀ i p name, s.publications i = some p → p.stage = .renames name →
    ¬PartPath (p.place name) → (s.unseen i = true ↔ (s.files (p.place name)).isSome = true)

namespace Folder

/-- The outcomes of an operation. -/
inductive Stepped (s : Folder γ) : FolderEvent γ → Folder γ → Prop
  | writes (here : List Name) (destDir : Path) (filename : Name) (content : γ) :
      Stepped s (.writes here destDir filename content) { s with
        files := Function.update s.files (partOf here destDir filename) (some (.file content)) }
  | begins (i : ℕ) (here : List Name) (destDir : Path) (filename : Name)
      (policy : CollisionPolicy) (uuid : Name) :
      Stepped s (.begins i here destDir filename policy uuid) { s with
        publications := Function.update s.publications i
          (some (.new here destDir filename policy uuid)) }
  | stays (i : ℕ) (fault : Fault) (p : Publication) (stage : Stage)
      (hp : s.publications i = some p) (hstage : ∀ name, stage ≠ .renames name) :
      Stepped s (.acts i fault) { s with
        publications := Function.update s.publications i (some { p with stage := stage }) }
  | checks (i : ℕ) (fault : Fault) (p : Publication) (name : Name)
      (hp : s.publications i = some p) (hstage : p.stage = .checks name) :
      Stepped s (.acts i fault) { s with
        publications := Function.update s.publications i (some { p with stage := .renames name })
        unseen := Function.update s.unseen i (pathExists (p.place name) s.files) }
  | renames (i : ℕ) (p : Publication) (name : Name) (fs' : FileSystem γ)
      (hp : s.publications i = some p) (hstage : p.stage = .renames name)
      (hren : rename p.part (p.place name) s.files = .ok ((), fs')) :
      Stepped s (.acts i .nothing) {
        files := fs'
        publications := Function.update s.publications i
          (some { p with stage := .ended (.ok (join p.dir name)) })
        unseen := fun j => s.unseen j || (s.publications j).any (·.takes (p.place name))
        published := match s.files p.part with
          | some (.file content) => s.published ++ [(p.place name, content)]
          | _ => s.published }

theorem note_stays {i : ℕ} {p : Publication} {stage : Stage}
    (hstage : ∀ name, stage ≠ .renames name)
    (hended : ∀ name, p.stage = .renames name → ∀ final, stage ≠ .ended (.ok final)) :
    s.note i p stage = s := by
  unfold note
  split
  · exact absurd rfl (hstage _)
  · rename_i hfrom
    exact absurd rfl (hended _ hfrom _)
  · rfl

theorem stepped (hs : s.step e = some s') : s.Stepped e s' := by
  cases e with
  | writes here destDir filename content =>
    obtain rfl := Option.some.inj hs
    exact .writes here destDir filename content
  | begins i here destDir filename policy uuid =>
    simp only [Folder.step] at hs
    split_ifs at hs
    obtain rfl := Option.some.inj hs
    exact .begins i here destDir filename policy uuid
  | acts i fault =>
    obtain ⟨p, hp, rfl⟩ := Option.map_eq_some_iff.1 hs
    have hstep := p.stepped fault s.files
    unfold act
    generalize p.step fault s.files = x at hstep ⊢
    cases hstep with
    | stays _ stage hstage hended =>
      rw [note_stays hstage hended]
      exact .stays i fault p stage hp hstage
    | checks _ name hstage =>
      simp only [note, hstage]
      exact .checks i fault p name hp hstage
    | renames name fs' hstage hren =>
      simp only [note, hstage]
      exact .renames i p name fs' hp hstage hren

/-- A publishing after one of them has changed. -/
theorem publications_update {i j : ℕ} {p q : Publication}
    (hq : Function.update s.publications i (some p) j = some q) :
    (j = i ∧ q = p) ∨ (j ≠ i ∧ s.publications j = some q) := by
  by_cases hij : j = i
  · subst hij
    rw [Function.update_self] at hq
    exact .inl ⟨rfl, (Option.some.inj hq).symm⟩
  · rw [Function.update_of_ne hij] at hq
    exact .inr ⟨hij, hq⟩

/-- A rename seen from another publishing. -/
theorem Tracks.renamed (h : s.Tracks) {j : ℕ} {p q : Publication} {name name' : Name}
    {fs' : FileSystem γ} (hparts : PartPath p.part)
    (hren : rename p.part (p.place name) s.files = .ok ((), fs'))
    (hq : s.publications j = some q) (hstage : q.stage = .renames name')
    (hplace : ¬PartPath (q.place name')) :
    (s.unseen j || (s.publications j).any (·.takes (p.place name))) = true ↔
      (fs' (q.place name')).isSome = true := by
  obtain ⟨entry, -, -, rfl⟩ := rename_cases hren
  have hpart : q.place name' ≠ p.part := by
    intro heq
    rw [heq] at hplace
    exact hplace hparts
  have htakes : (s.publications j).any (·.takes (p.place name)) =
      decide (q.place name' = p.place name) := by
    rw [hq, Option.any_some, Publication.takes, hstage]
  rw [htakes, Function.update_of_ne hpart]
  by_cases hsame : q.place name' = p.place name
  · simp [hsame]
  · rw [Function.update_of_ne hsame, decide_eq_false hsame, Bool.or_false]
    exact h.unseen j q name' hq hstage hplace

theorem Tracks.step (h : s.Tracks) (hs : s.step e = some s') : s'.Tracks := by
  cases stepped hs with
  | writes here destDir filename content =>
    refine ⟨h.parts, fun i p name hp hstage hplace => ?_⟩
    have hne : p.place name ≠ partOf here destDir filename := by
      intro heq
      rw [heq] at hplace
      exact hplace (partPath_partOf here destDir filename)
    dsimp only
    rw [Function.update_of_ne hne]
    exact h.unseen i p name hp hstage hplace
  | begins i here destDir filename policy uuid =>
    refine ⟨fun j q hq => ?_, fun j q name hq hstage hplace => ?_⟩
    · rcases publications_update hq with ⟨-, rfl⟩ | ⟨-, hq⟩
      · exact partPath_partOf here destDir filename
      · exact h.parts j q hq
    · rcases publications_update hq with ⟨-, rfl⟩ | ⟨-, hq⟩
      · exact absurd hstage (Stage.search_ne_renames _ _ _)
      · exact h.unseen j q name hq hstage hplace
  | stays i fault p stage hp hnot =>
    refine ⟨fun j q hq => ?_, fun j q name hq hstage hplace => ?_⟩
    · rcases publications_update hq with ⟨-, rfl⟩ | ⟨-, hq⟩
      · exact h.parts i p hp
      · exact h.parts j q hq
    · rcases publications_update hq with ⟨-, rfl⟩ | ⟨-, hq⟩
      · exact absurd hstage (hnot name)
      · exact h.unseen j q name hq hstage hplace
  | checks i fault p name hp hcheck =>
    refine ⟨fun j q hq => ?_, fun j q name' hq hstage hplace => ?_⟩
    · rcases publications_update hq with ⟨-, rfl⟩ | ⟨-, hq⟩
      · exact h.parts i p hp
      · exact h.parts j q hq
    · dsimp only
      rcases publications_update hq with ⟨rfl, rfl⟩ | ⟨hij, hq⟩
      · obtain rfl := Stage.renames.inj hstage
        rw [Function.update_self]
        exact Iff.rfl
      · rw [Function.update_of_ne hij]
        exact h.unseen j q name' hq hstage hplace
  | renames i p name fs' hp hrename hren =>
    refine ⟨fun j q hq => ?_, fun j q name' hq hstage hplace => ?_⟩
    · rcases publications_update hq with ⟨-, rfl⟩ | ⟨-, hq⟩
      · exact h.parts i p hp
      · exact h.parts j q hq
    · rcases publications_update hq with ⟨-, rfl⟩ | ⟨-, hq⟩
      · cases hstage
      · exact h.renamed (h.parts i p hp) hren hq hstage hplace

end Folder

/-! ### What a run keeps -/

/-- One file system grows into another: what is no part file stays as it is. -/
def Grows (fs fs' : FileSystem γ) : Prop :=
  ∀ p, ¬PartPath p → (fs p).isSome = true → fs' p = fs p

theorem Grows.refl (fs : FileSystem γ) : Grows fs fs := fun _ _ _ => rfl

theorem Grows.trans {fs₁ fs₂ : FileSystem γ} (h : Grows fs fs₁) (h' : Grows fs₁ fs₂) :
    Grows fs fs₂ := by
  intro p hp hsome
  have hfirst := h p hp hsome
  exact (h' p hp (by rwa [hfirst])).trans hfirst

/-- An operation publishes nothing, or it publishes a part file under a name that was free unless
it is that of a part file.  In either case it changes nothing else but part files. -/
inductive Step (fs fs' : FileSystem γ) : List (Path × γ) → Prop
  | quiet (hgrows : Grows fs fs') : Step fs fs' []
  | publishes {final : Path} {content : γ} (hgrows : Grows fs fs')
      (hfree : ¬PartPath final → fs final = none)
      (hfinal : ¬PartPath final → fs' final = some (.file content)) :
      Step fs fs' [(final, content)]

theorem Step.grows {new : List (Path × γ)} (h : Step fs fs' new) :
    Grows fs fs' := by
  cases h with
  | quiet hgrows => exact hgrows
  | publishes hgrows _ _ => exact hgrows

/-- The files that a run has published, apart from those under the names of part files. -/
structure Published (fs₀ fs : FileSystem γ) (log : List (Path × γ)) : Prop where
  grows : Grows fs₀ fs
  fresh : ∀ e ∈ log, ¬PartPath e.1 → fs₀ e.1 = none
  held : ∀ e ∈ log, ¬PartPath e.1 → fs e.1 = some (.file e.2)
  apart : log.Pairwise fun a b => ¬PartPath a.1 → a.1 ≠ b.1

theorem Published.step {new : List (Path × γ)} (h : Published fs₀ fs log)
    (hstep : Step fs fs' new) : Published fs₀ fs' (log ++ new) := by
  have hheld : ∀ e ∈ log, ¬PartPath e.1 → fs' e.1 = some (.file e.2) := fun e he hp => by
    have hbefore := h.held e he hp
    exact (hstep.grows e.1 hp (by rw [hbefore]; rfl)).trans hbefore
  cases hstep with
  | quiet hgrows =>
    rw [List.append_nil]
    exact ⟨h.grows.trans hgrows, h.fresh, hheld, h.apart⟩
  | @publishes final content hgrows hfree hfinal =>
    refine ⟨h.grows.trans hgrows, ?_, ?_, ?_⟩
    · intro e he hp
      rcases List.mem_append.1 he with he | he
      · exact h.fresh e he hp
      · obtain rfl := List.mem_singleton.1 he
        -- what had the name at first would have it still
        by_contra hsome
        have hkept := h.grows final hp (Option.isSome_iff_ne_none.2 hsome)
        exact hsome (hkept.symm.trans (hfree hp))
    · intro e he hp
      rcases List.mem_append.1 he with he | he
      · exact hheld e he hp
      · obtain rfl := List.mem_singleton.1 he
        exact hfinal hp
    · refine List.pairwise_append.2 ⟨h.apart, List.pairwise_singleton _ _, fun a ha b hb hp => ?_⟩
      obtain rfl := List.mem_singleton.1 hb
      rintro rfl
      have hbefore := h.held a ha hp
      rw [hfree hp] at hbefore
      cases hbefore

theorem Grows.of_rename {p : Publication} {name : Name} (hpart : PartPath p.part)
    (hren : rename p.part (p.place name) fs = .ok ((), fs'))
    (hfree : ¬PartPath (p.place name) → fs (p.place name) = none) : Grows fs fs' := by
  obtain ⟨entry, -, -, rfl⟩ := rename_cases hren
  intro q hq hsome
  rw [Function.update_of_ne, Function.update_of_ne]
  · rintro rfl
    rw [hfree hq] at hsome
    cases hsome
  · rintro rfl
    exact hq hpart

/-- An operation of a run in which nobody renames onto an unseen file. -/
theorem Folder.Tracks.steps (h : s.Tracks) (hsight : s.sighted e = true)
    (hs : s.step e = some s') :
    ∃ new, s'.published = s.published ++ new ∧ Step s.files s'.files new := by
  have hquiet : s'.published = s.published → Grows s.files s'.files →
      ∃ new, s'.published = s.published ++ new ∧ Step s.files s'.files new :=
    fun hpub hgrows => ⟨[], by rw [hpub, List.append_nil], .quiet hgrows⟩
  cases stepped hs with
  | writes here destDir filename content =>
    refine hquiet rfl fun q hq _ => Function.update_of_ne ?_ _ _
    rintro rfl
    exact hq (partPath_partOf here destDir filename)
  | begins => exact hquiet rfl (.refl _)
  | stays => exact hquiet rfl (.refl _)
  | checks => exact hquiet rfl (.refl _)
  | renames i p name fs' hp hstage hren =>
    have hfree : ¬PartPath (p.place name) → s.files (p.place name) = none := by
      intro hplace
      have hunseen : s.unseen i = false := by
        simpa only [sighted, hp, Option.all_some, hstage, Bool.not_eq_true'] using hsight
      have hiff := h.unseen i p name hp hstage hplace
      rw [hunseen] at hiff
      simpa using hiff
    have hgrows := Grows.of_rename (h.parts i p hp) hren hfree
    obtain ⟨entry, hentry, -, rfl⟩ := rename_cases hren
    cases entry with
    | directory => exact hquiet (by simp only [hentry]) hgrows
    | file content =>
      refine ⟨[(p.place name, content)], by simp only [hentry], .publishes hgrows hfree ?_⟩
      intro hplace
      dsimp only
      rw [Function.update_of_ne, Function.update_self]
      intro heq
      rw [heq] at hplace
      exact hplace (h.parts i p hp)

/-- The second free name for `f`. -/
def secondName : Name := ['f', ' ', '(', '2', ')']

/-- The name `f` is in use.  A download named `f` and one named `f (2)` come to their end. -/
def twoEnds : List (FolderEvent ℕ) :=
  [.writes [] [] secondName 2, .begins 0 [] [] ['f'] .rename [],
    .begins 1 [] [] secondName .rename []]

/-- **The check comes too early.**  Both check `f (2)` before either renames, and two files are
published under the name. -/
theorem race_replaces :
    ∃ s, folderMachine.Reaches (Folder.start usedFiles) s ∧
      s.published = [(locate [] [.normal secondName], 2), (locate [] [.normal secondName], 1)] ∧
      ¬Published usedFiles s.files s.published := by
  have hrun : (folderMachine.exec (Folder.start usedFiles) (twoEnds ++ [.acts 0 .nothing,
      .acts 0 .nothing, .acts 1 .nothing, .acts 0 .nothing, .acts 1 .nothing, .acts 1 .nothing,
      .acts 0 .nothing])).map (fun s => s.published) =
        some [(locate [] [.normal secondName], 2), (locate [] [.normal secondName], 1)] := by
    decide +kernel
  obtain ⟨s, hs, hpub⟩ := Option.map_eq_some_iff.1 hrun
  refine ⟨s, Machine.reaches_of_exec hs, hpub, fun h => ?_⟩
  have hplace : ¬PartPath (locate [] [.normal secondName]) := by
    rintro ⟨dir, name, heq⟩
    have hlast := congrArg List.getLast? heq
    simp only [locate, resolveFrom, List.getLast?_append, List.getLast?_singleton] at hlast
    have hlen := congrArg List.length (Component.normal.inj (Option.some.inj hlast))
    simp [secondName] at hlen
  have hapart := h.apart
  rw [hpub] at hapart
  exact List.rel_of_pairwise_cons hapart List.mem_cons_self hplace rfl

end Publishing

end SwiftLoad
