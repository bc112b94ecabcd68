import SwiftLoad.Util.Truncation

/-!
# Where a destination is

`resolve_destination` compares the destination with the directory after both were normalized, and
`normalize_lexically` drops a `..` that nothing precedes.  A relative directory that climbs above
the place where it starts is another one after that, and the check compares it with itself.

* `resolveFrom` : what a path denotes, read in a directory.
* `ascent` : a relative path as so many steps up and the names below.
* `normalizeLexically_eq` : normalizing keeps the names and drops the steps up.
* `ascent_eq_zero_iff` : a path that never climbs above its start has none.
* `destination_iff` : **which directories the destination is in.**
-/

namespace SwiftLoad

namespace Filename

/-- The names that lead from the root to what the path denotes, when it is read in `here`. -/
def resolveFrom (here : List Name) (p : Path) : List Name :=
  p.foldl (fun here comp =>
    match comp with
    | .rootDir => []
    | .curDir => here
    | .parentDir => here.dropLast
    | .normal name => here ++ [name]) here

/-- The file `name` in the directory `dir`, wherever the two paths are read. -/
def InDir (dir : Path) (name : Name) (p : Path) : Prop :=
  ∃ parent, p = parent ++ [.normal name] ∧
    ∀ here, resolveFrom here parent = resolveFrom here dir

/-- A component that is a name. -/
def Component.isName : Component → Bool
  | .normal _ => true
  | _ => false

/-- The way a path without root goes: up first, then down along names. -/
structure Ascent where
  ups : ℕ
  names : List Name
deriving DecidableEq

/-- One component more. -/
def Ascent.step (a : Ascent) : Component → Ascent
  | .normal name => { a with names := a.names ++ [name] }
  | .parentDir =>
    if a.names = [] then { a with ups := a.ups + 1 } else { a with names := a.names.dropLast }
  | _ => a

/-- The way of a path. -/
def ascent (p : Path) : Ascent := p.foldl Ascent.step ⟨0, []⟩

variable {p dir : Path} {here : List Name} {filename : Name}

theorem ascent_concat (p : Path) (c : Component) : ascent (p ++ [c]) = (ascent p).step c := by
  simp [ascent]

theorem resolveFrom_eq (hp : .rootDir ∉ p) (here : List Name) :
    resolveFrom here p = here.take (here.length - (ascent p).ups) ++ (ascent p).names := by
  induction p using List.reverseRecOn with
  | nil => simp [resolveFrom, ascent]
  | append_singleton p c ih =>
    have ih := ih fun hmem => hp (List.mem_append_left _ hmem)
    have hstep : ∀ b : Path, resolveFrom here (p ++ b) = resolveFrom (resolveFrom here p) b := by
      simp [resolveFrom]
    rw [hstep, ih, ascent_concat]
    cases c with
    | rootDir => exact absurd (List.mem_append_right _ (List.mem_singleton_self _)) hp
    | curDir => rfl
    | normal name => simp [resolveFrom, Ascent.step]
    | parentDir =>
      by_cases hnil : (ascent p).names = []
      · simp only [resolveFrom, List.foldl_cons, List.foldl_nil, Ascent.step, hnil, if_true,
          List.append_nil, List.dropLast_eq_take, List.take_take, List.length_take]
        congr 1
        omega
      · simp [resolveFrom, Ascent.step, hnil, List.dropLast_append_of_ne_nil]

theorem resolveFrom_rootDir (hp : .rootDir ∉ p) (here : List Name) :
    resolveFrom here (.rootDir :: p) = (ascent p).names := by
  have h := resolveFrom_eq hp []
  rw [List.take_nil, List.nil_append] at h
  exact h

theorem pop_append {root : Path} (hroot : root = [] ∨ root = [.rootDir]) (ns : List Name) :
    pop (root ++ ns.map .normal) = root ++ ns.dropLast.map .normal := by
  rcases List.eq_nil_or_concat' ns with rfl | ⟨ns, n, rfl⟩
  · rcases hroot with rfl | rfl <;> rfl
  · simp [pop, ← List.append_assoc]

theorem normalizeLexically_eq {root : Path} (hroot : root = [] ∨ root = [.rootDir])
    (hp : .rootDir ∉ p) :
    normalizeLexically (root ++ p) = root ++ (ascent p).names.map .normal := by
  induction p using List.reverseRecOn with
  | nil => rcases hroot with rfl | rfl <;> rfl
  | append_singleton p c ih =>
    have ih := ih fun hmem => hp (List.mem_append_left _ hmem)
    rw [ascent_concat]
    cases c with
    | rootDir => exact absurd (List.mem_append_right _ (List.mem_singleton_self _)) hp
    | curDir =>
      have hstep : normalizeLexically (root ++ (p ++ [.curDir])) =
          normalizeLexically (root ++ p) := by
        simp [normalizeLexically]
      exact hstep.trans ih
    | normal name =>
      have hstep : normalizeLexically (root ++ (p ++ [.normal name])) =
          normalizeLexically (root ++ p) ++ [.normal name] := by
        simp [normalizeLexically]
      rw [hstep, ih]
      simp [Ascent.step]
    | parentDir =>
      have hstep : normalizeLexically (root ++ (p ++ [.parentDir])) =
          pop (normalizeLexically (root ++ p)) := by
        simp [normalizeLexically]
      rw [hstep, ih, pop_append hroot]
      by_cases hnil : (ascent p).names = []
      · simp [Ascent.step, hnil]
      · simp [Ascent.step, hnil]

/-- Every step up takes back a name or leads above the start. -/
theorem ascent_balance (p : Path) :
    p.countP Component.isName + (ascent p).ups =
      (ascent p).names.length + p.count .parentDir := by
  induction p using List.reverseRecOn with
  | nil => rfl
  | append_singleton p c ih =>
    rw [ascent_concat, List.countP_append, List.count_append]
    cases c with
    | rootDir => exact ih
    | curDir => exact ih
    | normal name =>
      have hname : [Component.normal name].countP Component.isName = 1 := rfl
      have hup : [Component.normal name].count .parentDir = 0 := rfl
      rw [hname, hup]
      simp only [Ascent.step, List.length_append, List.length_singleton]
      omega
    | parentDir =>
      have hname : [Component.parentDir].countP Component.isName = 0 := rfl
      have hup : [Component.parentDir].count .parentDir = 1 := rfl
      rw [hname, hup]
      by_cases hnil : (ascent p).names = []
      · simp only [Ascent.step, if_pos hnil]
        omega
      · have hlen := List.length_pos_iff.2 hnil
        simp only [Ascent.step, if_neg hnil, List.length_dropLast]
        omega

theorem Ascent.step_cases (a : Ascent) (c : Component) :
    (a.step c).ups = a.ups ∨ (a.step c).ups = a.ups + 1 ∧ (a.step c).names = [] := by
  cases c with
  | parentDir =>
    by_cases hnil : a.names = []
    · exact .inr (by simp [step, hnil])
    · exact .inl (by simp [step, hnil])
  | _ => exact .inl rfl

/-- A path never climbs above its start when no first part of it has more steps up than names. -/
theorem ascent_eq_zero_iff (p : Path) :
    (ascent p).ups = 0 ↔ ∀ q, q <+: p → q.count .parentDir ≤ q.countP Component.isName := by
  induction p using List.reverseRecOn with
  | nil =>
    refine iff_of_true rfl fun q hq => ?_
    rw [List.prefix_nil.1 hq]
    rfl
  | append_singleton p c ih =>
    have hbal := ascent_balance (p ++ [c])
    have hstep := (ascent p).step_cases c
    rw [← ascent_concat] at hstep
    constructor
    · intro hzero q hq
      rcases List.prefix_concat_iff.1 hq with rfl | hq
      · omega
      · exact ih.1 (by omega) q hq
    · intro hall
      have hzero := ih.2 fun q hq => hall q (hq.trans (List.prefix_append _ _))
      have hwhole := hall _ List.prefix_rfl
      rcases hstep with hsame | ⟨-, hnil⟩
      · exact hsame.trans hzero
      · -- a step up from the start would be one too many
        rw [hnil, List.length_nil] at hbal
        omega

theorem ascent_names (ns : List Name) : ascent (ns.map .normal) = ⟨0, ns⟩ := by
  induction ns using List.reverseRecOn with
  | nil => rfl
  | append_singleton ns n ih =>
    rw [List.map_append, List.map_singleton, ascent_concat, ih]
    rfl

theorem rootDir_not_mem_names (ns : List Name) : Component.rootDir ∉ ns.map Component.normal := by
  simp

theorem rootDir_not_mem_relative (hdir : .rootDir ∉ dir.tail) (h : dir.head? ≠ some .rootDir) :
    .rootDir ∉ dir := by
  cases dir with
  | nil => simp
  | cons c rest =>
    intro hmem
    rcases List.mem_cons.1 hmem with rfl | hmem
    · exact h rfl
    · exact hdir hmem

/-- A normalized directory is the same one when it has a root or there are no steps up. -/
theorem resolveFrom_normalizeLexically_iff (hdir : .rootDir ∉ dir.tail) :
    (∀ here, resolveFrom here (normalizeLexically dir) = resolveFrom here dir) ↔
      dir.head? = some .rootDir ∨ (ascent dir).ups = 0 := by
  by_cases hroot : dir.head? = some .rootDir
  · obtain ⟨rest, rfl⟩ := List.head?_eq_some_iff.1 hroot
    have hdir : .rootDir ∉ rest := hdir
    have hnorm : normalizeLexically (.rootDir :: rest) =
        .rootDir :: (ascent rest).names.map .normal := normalizeLexically_eq (.inr rfl) hdir
    refine iff_of_true (fun here => ?_) (.inl hroot)
    rw [hnorm, resolveFrom_rootDir (rootDir_not_mem_names _), resolveFrom_rootDir hdir,
      ascent_names]
  · have hrel := rootDir_not_mem_relative hdir hroot
    have hnorm : normalizeLexically dir = (ascent dir).names.map .normal :=
      normalizeLexically_eq (.inl rfl) hrel
    have hplain : ∀ here, resolveFrom here (normalizeLexically dir) =
        here ++ (ascent dir).names := fun here => by
      rw [hnorm, resolveFrom_eq (rootDir_not_mem_names _), ascent_names, Nat.sub_zero,
        List.take_length]
    rw [or_iff_right hroot]
    constructor
    · intro hall
      -- read in a directory below the root, a step up makes the path shorter
      have hone := congrArg List.length (hall [[]])
      rw [hplain, resolveFrom_eq hrel] at hone
      simp only [List.length_append, List.length_take, List.length_cons, List.length_nil] at hone
      omega
    · intro hzero here
      rw [hplain, resolveFrom_eq hrel, hzero, Nat.sub_zero, List.take_length]

/-- **The destination.**  A root comes first in a path, if at all.  Exactly when the directory has
one, or never climbs above the place where it starts, a name's destination is the file of the
sanitized name in that directory. -/
theorem destination_iff (hdir : .rootDir ∉ dir.tail) (filename : Name) :
    (∃ p, resolveDestination dir filename = .ok p ∧ InDir dir (sanitize filename) p) ↔
      dir.head? = some .rootDir ∨
        ∀ q, q <+: dir → q.count .parentDir ≤ q.countP Component.isName := by
  have hin : (∃ p, resolveDestination dir filename = .ok p ∧ InDir dir (sanitize filename) p) ↔
      ∀ here, resolveFrom here (normalizeLexically dir) = resolveFrom here dir := by
    rw [resolveDestination_eq]
    constructor
    · rintro ⟨p, hp, parent, rfl, hparent⟩
      obtain rfl := (List.append_singleton_inj.1 (Except.ok.inj hp)).1
      exact hparent
    · exact fun h => ⟨_, rfl, _, rfl, h⟩
  rw [hin, resolveFrom_normalizeLexically_iff hdir]
  by_cases hroot : dir.head? = some .rootDir
  · exact iff_of_true (.inl hroot) (.inl hroot)
  · rw [or_iff_right hroot, or_iff_right hroot]
    exact ascent_eq_zero_iff dir

/-- Down and up again, back to the start. -/
theorem destination_in_sibling :
    ∃ p, resolveDestination [.normal ['d'], .parentDir, .curDir, .normal ['e']] ['f'] = .ok p ∧
      InDir [.normal ['d'], .parentDir, .curDir, .normal ['e']] (sanitize ['f']) p :=
  (destination_iff (by decide) _).2 (.inr ((ascent_eq_zero_iff _).1 (by decide)))

/-- The directory above becomes this one. -/
theorem destination_climbs :
    resolveDestination [.parentDir] ['f'] = .ok [.normal ['f']] ∧
      ¬InDir [.parentDir] (sanitize ['f']) [.normal ['f']] := by
  have hname : sanitize ['f'] = ['f'] := by decide
  rw [hname]
  refine ⟨by decide, ?_⟩
  rintro ⟨parent, hp, hparent⟩
  obtain rfl := (List.append_singleton_inj.1 ((List.nil_append _).trans hp)).1
  exact absurd (hparent [['d']]) (by decide)

end Filename

end SwiftLoad
