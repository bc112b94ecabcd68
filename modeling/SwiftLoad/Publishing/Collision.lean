import SwiftLoad.Config
import SwiftLoad.Publishing
import SwiftLoad.Util.Destination

/-!
# A free name to publish under

`dedupe` of `util/filename.rs`, `unique_destination` of `task/mod.rs` and the end of `download`,
which publishes the part file.  Each look at the file system can fail, and then counts as a name
that is free; `finalize` looks once more.

* `publish` : the end of `download`, with the names that a collision policy tries.
* `freeName` : the name that the search ends with, as a function of what it is told.
* `Overlooked` : a file that has the name is seen neither by the search nor by `finalize`.
* `settle_run` : one publishing, told as what it tries and what it leaves.
* `publish_outcome` : **what publishing does unless it may overwrite.**
-/

namespace SwiftLoad

namespace Publishing

open Filename

variable {γ : Type}

/-- Where a path leads, read in the directory `here`. -/
def locate (here : List Name) (p : Path) : Path := .rootDir :: (resolveFrom here p).map .normal

/-- The part of a name that is numbered, and the extension. -/
def stemAndExt (filename : Name) : Name × Option Name :=
  match rsplitDot filename with
  | some (stem, ext) => if stem ≠ [] then (stem, some ext) else (filename, none)
  | none => (filename, none)

/-- `stem (n).ext`. -/
def numbered (filename : Name) (n : ℕ) : Name :=
  let (stem, ext) := stemAndExt filename
  stem ++ [' ', '('] ++ Nat.toDigits 10 n ++ [')'] ++ ext.elim [] fun ext => '.' :: ext

/-- `stem-uuid`. -/
def lastResort (filename uuid : Name) : Name := (stemAndExt filename).1 ++ '-' :: uuid

/-- `dir.join(name).exists()`. -/
def taken (here : List Name) (dir : Path) (name : Name) :
    Program (Faulty (FileSystem γ)) (Abort IoError) Bool :=
  (Program.statement IoError.other
    fun fs => .ok (pathExists (locate here (join dir name)) fs, fs)).unwrapOr false

/-- The first of the names that is free. -/
def firstFree (here : List Name) (dir : Path) :
    List Name → Program (Faulty (FileSystem γ)) (Abort IoError) (Option Name)
  | [] => pure none
  | name :: names => do
    if ← taken here dir name then firstFree here dir names else return some name

/-- `dedupe`: `n` runs from 2 up to 9999. -/
def dedupe (here : List Name) (dir : Path) (filename uuid : Name) :
    Program (Faulty (FileSystem γ)) (Abort IoError) Name := do
  if ← taken here dir filename then
    let free ← firstFree here dir ((List.range' 2 9998).map (numbered filename))
    return free.getD (lastResort filename uuid)
  else return filename

/-- The name that `dedupe` returns when `seen` is what the looks at the names say. -/
def freeName (seen : Name → Bool) (uuid filename : Name) : Name :=
  if seen filename then
    (((List.range' 2 9998).map (numbered filename)).find? fun name => !seen name).getD
      (lastResort filename uuid)
  else filename

/-- `unique_destination`. -/
def uniqueDestination (here : List Name) (policy : CollisionPolicy) (uuid : Name) (dest : Path) :
    Program (Faulty (FileSystem γ)) (Abort IoError) Path :=
  match policy with
  | .rename => do
    let dir := dest.dropLast
    let name ← dedupe here dir (fileName dest) uuid
    return join dir name
  | _ => return dest

/-- The end of `download`: the part file gets its final name. -/
def publish (here : List Name) (destDir : Path) (filename : Name) (policy : CollisionPolicy)
    (uuid : Name) : Program (Faulty (FileSystem γ)) (Abort IoError) Path :=
  match resolveDestination destDir filename with
  | .error _ => throw (.failed .other)
  | .ok dest => do
    let part := partPath destDir (fileName dest)
    let final ← uniqueDestination here policy uuid dest
    finalize (locate here part) (locate here final) (decide (policy = .overwrite))
    return final

/-! ### Paths and names -/

variable {here : List Name} {dir destDir part : Path} {filename uuid name : Name} {n : ℕ}
  {policy : CollisionPolicy} {fs : FileSystem γ} {faults : ℕ → Fault} {content : γ}

theorem locate_join (here : List Name) (dir : Path) (name : Name) :
    locate here (join dir name) =
      .rootDir :: (resolveFrom here dir ++ [name]).map .normal := by
  simp [locate, join, resolveFrom]

theorem name_eq_of_locate {dir' : Path} {name' : Name}
    (h : locate here (join dir name) = locate here (join dir' name')) : name = name' := by
  rw [locate_join, locate_join] at h
  have hnames := List.map_injective_iff.2 (fun _ _ => Component.normal.inj) (List.cons.inj h).2
  exact (List.append_inj' hnames rfl).2 |> List.singleton_inj.1

theorem stemAndExt_spec (filename : Name) : ∃ rest, filename = (stemAndExt filename).1 ++ rest ∧
    (stemAndExt filename).2.elim [] (fun ext => '.' :: ext) = rest ∧
    (rest = [] ∨ rest.head? = some '.') := by
  unfold stemAndExt
  cases h : rsplitDot filename with
  | none => exact ⟨[], by simp, rfl, .inl rfl⟩
  | some p =>
    obtain ⟨stem, ext⟩ := p
    dsimp only
    by_cases hstem : stem ≠ []
    · rw [if_pos hstem]
      exact ⟨'.' :: ext, rsplitDot_eq_some h, rfl, .inr rfl⟩
    · rw [if_neg hstem]
      exact ⟨[], by simp, rfl, .inl rfl⟩

/-- The names that are tried, in order. -/
def tried (filename : Name) : CollisionPolicy → List Name
  | .rename => filename :: (List.range' 2 9998).map (numbered filename)
  | _ => []

/-- The name that is taken when all of these are in use. -/
def fallbackName (filename uuid : Name) : CollisionPolicy → Name
  | .rename => lastResort filename uuid
  | _ => filename

theorem ne_partName (policy : CollisionPolicy)
    (h : name ∈ tried filename policy ∨ name = fallbackName filename uuid policy) :
    name ≠ filename ++ ['.', 's', 'l', 'p', 'a', 'r', 't'] := by
  obtain ⟨rest, hname, hext, hrest⟩ := stemAndExt_spec filename
  -- what stands behind the stem starts with another character
  have hbehind : ∀ (c : Char) (s : Name), c ≠ '.' →
      (stemAndExt filename).1 ++ c :: s ≠ filename ++ ['.', 's', 'l', 'p', 'a', 'r', 't'] := by
    intro c s hc heq
    have hcut : c :: s = rest ++ ['.', 's', 'l', 'p', 'a', 'r', 't'] := by
      refine List.append_cancel_left (heq.trans ?_)
      conv_lhs => rw [hname]
      rw [List.append_assoc]
    rcases hrest with rfl | hhead
    · exact hc (List.cons.inj hcut).1
    · cases rest with
      | nil => cases hhead
      | cons d rest => exact hc ((List.cons.inj hcut).1.trans (Option.some.inj hhead))
  have hself : filename ≠ filename ++ ['.', 's', 'l', 'p', 'a', 'r', 't'] := fun heq => by
    have hlen := congrArg List.length heq
    rw [List.length_append] at hlen
    have hseven : ['.', 's', 'l', 'p', 'a', 'r', 't'].length = 7 := rfl
    omega
  have hnumbered : ∀ n, numbered filename n ≠ filename ++ ['.', 's', 'l', 'p', 'a', 'r', 't'] :=
    fun n => by
      have h := hbehind ' ' ('(' :: (Nat.toDigits 10 n ++ [')'] ++
        (stemAndExt filename).2.elim [] fun ext => '.' :: ext)) (by decide)
      simpa [numbered, List.append_assoc] using h
  cases policy with
  | rename =>
    rcases h with h | rfl
    · rcases List.mem_cons.1 h with rfl | h
      · exact hself
      · obtain ⟨n, -, rfl⟩ := List.mem_map.1 h
        exact hnumbered n
    · exact hbehind '-' uuid (by decide)
  | overwrite =>
    obtain rfl := h.resolve_left List.not_mem_nil
    exact hself
  | ask =>
    obtain rfl := h.resolve_left List.not_mem_nil
    exact hself

/-! ### One publishing -/

/-- The file system with the part file under its final name. -/
def moved (part final : Path) (fs : FileSystem γ) : FileSystem γ :=
  Function.update (Function.update fs final (fs part)) part none

theorem moved_spec {part final : Path} (hne : final ≠ part) (fs : FileSystem γ) :
    moved part final fs final = fs part ∧ moved part final fs part = none ∧
      ∀ p, p ≠ final → p ≠ part → moved part final fs p = fs p := by
  unfold moved
  refine ⟨?_, Function.update_self _ _ _, fun p hp hp' => ?_⟩
  · rw [Function.update_of_ne hne, Function.update_self]
  · rw [Function.update_of_ne hp', Function.update_of_ne hp]

/-- Look for a free name among `names`, and publish. -/
def settle (here : List Name) (dir part : Path) (names : List Name) (last : Name) :
    Program (Faulty (FileSystem γ)) (Abort IoError) Path := do
  let free ← firstFree here dir names
  let name := free.getD last
  finalize part (locate here (join dir name)) false
  return join dir name

/-- The name itself is the first of those that are tried. -/
theorem search_bind {β : Type} (names : List Name) (last : Name)
    (k : Name → Program (Faulty (FileSystem γ)) (Abort IoError) β) :
    ((do
      if ← taken here dir filename then
        let free ← firstFree here dir names
        return free.getD last
      else return filename) >>= k) =
      firstFree here dir (filename :: names) >>= fun free => k (free.getD last) := by
  rw [firstFree, bind_assoc, bind_assoc]
  refine bind_congr fun b => ?_
  cases b with
  | false => simp
  | true => simp

/-- Unless it may overwrite, publishing is a search for a free name. -/
theorem publish_eq (hpolicy : policy ≠ .overwrite) :
    (publish here destDir filename policy uuid :
        Program (Faulty (FileSystem γ)) (Abort IoError) Path) =
      settle here (normalizeLexically destDir)
        (locate here (partPath destDir (sanitize filename))) (tried (sanitize filename) policy)
        (fallbackName (sanitize filename) uuid policy) := by
  have hdest : normalizeLexically destDir ++ [Component.normal (sanitize filename)] =
      join (normalizeLexically destDir) (sanitize filename) := rfl
  unfold publish
  rw [resolveDestination_eq]
  dsimp only
  rw [fileName_append, decide_eq_false hpolicy]
  cases policy with
  | overwrite => exact absurd rfl hpolicy
  | ask =>
    simp only [uniqueDestination, settle, tried, firstFree, fallbackName, pure_bind,
      Option.getD_none, hdest]
  | rename =>
    simp only [uniqueDestination, bind_assoc, fileName_append, List.dropLast_concat, pure_bind]
    exact search_bind _ _ _

variable {final : Path}

/-- The check of a file that has the final name fails, and the rename gets through. -/
structure Unchecked (fs : FileSystem γ) (final : Path) (faults : ℕ → Fault) : Prop where
  file : ∃ old, fs final = some (.file old)
  check : faults 0 = .fails
  renamed : faults 1 = .nothing

theorem rename_eq (hpart : fs part = some (.file content)) (hfinal : fs final ≠ some .directory) :
    rename part final fs = .ok ((), moved part final fs) := by
  unfold rename moved
  rw [hpart]
  cases h : fs final with
  | none => rfl
  | some entry =>
    cases entry with
    | file _ => rfl
    | directory => exact absurd h hfinal

/-- The rename takes the part file to its name, or nothing happens. -/
theorem rename_run (hpart : fs part = some (.file content)) (final : Path) (faults : ℕ → Fault) :
    (faults 0 = .nothing ∧ fs final ≠ some .directory ∧
      (Program.statement IoError.other (rename part final)).under fs faults =
        (.ok (), moved part final fs)) ∨
    ((faults 0 ≠ .nothing ∨ fs final = some .directory) ∧
      ∃ e, (Program.statement IoError.other (rename part final)).under fs faults =
        (.error e, fs)) := by
  by_cases hfault : faults 0 = .nothing
  · by_cases hfinal : fs final = some .directory
    · have herr : rename part final fs = .error .isADirectory := by
        unfold rename
        rw [hpart, hfinal]
      exact .inr ⟨.inr hfinal, _, by rw [Program.under_statement hfault, herr]⟩
    · exact .inl ⟨hfault, hfinal, by rw [Program.under_statement hfault, rename_eq hpart hfinal]⟩
  · exact .inr ⟨.inl hfault, Program.under_statement_of_ne hfault⟩

/-- `finalize` that may not overwrite: nothing happens, or the part file is moved, and then the name
was free unless it went unchecked. -/
theorem finalize_run (hpart : fs part = some (.file content)) (final : Path)
    (faults : ℕ → Fault) :
    ((∃ e, (finalize part final false).under fs faults = (.error e, fs)) ∧
      ¬Unchecked fs final faults) ∨
    (finalize part final false).under fs faults = (.ok (), moved part final fs) ∧
      ((fs final).isSome = true ↔ Unchecked fs final faults) := by
  rw [under_finalize]
  cases hcheck : faults 0 with
  | crashes => exact .inl ⟨⟨_, rfl⟩, fun h => by simp [h.check] at hcheck⟩
  | fails =>
    dsimp only
    rcases rename_run hpart final fun n => faults (n + 1) with
      ⟨hok, hdir, hrun⟩ | ⟨hno, hrun⟩
    · refine .inr ⟨hrun, fun h => ?_, fun h => ?_⟩
      · obtain ⟨entry, hentry⟩ := Option.isSome_iff_exists.1 h
        cases entry with
        | file old => exact ⟨⟨old, hentry⟩, hcheck, hok⟩
        | directory => exact absurd hentry hdir
      · obtain ⟨old, hold⟩ := h.file
        rw [hold]
        rfl
    · refine .inl ⟨hrun, fun h => ?_⟩
      obtain ⟨old, hold⟩ := h.file
      rcases hno with hno | hno
      · exact hno h.renamed
      · simp [hold] at hno
  | nothing =>
    dsimp only
    have hseen : ¬Unchecked fs final faults := fun h => by simp [h.check] at hcheck
    cases hfinal : fs final with
    | some entry => exact .inl ⟨⟨_, rfl⟩, hseen⟩
    | none =>
      rw [if_neg (by simp)]
      rcases rename_run hpart final fun n => faults (n + 1) with
        ⟨-, -, hrun⟩ | ⟨-, hrun⟩
      · exact .inr ⟨hrun, iff_of_false (by simp) hseen⟩
      · exact .inl ⟨hrun, hseen⟩

/-- The name that is published under: the first of the names that is free, or that is not seen to be
taken. -/
inductive Chosen (fs : FileSystem γ) (place : Name → Path) (last : Name) : List Name → Name → Prop
  | last : Chosen fs place last [] last
  | found {name : Name} {names : List Name} : Chosen fs place last (name :: names) name
  | next {name' name : Name} {names : List Name} (htaken : (fs (place name')).isSome = true)
      (h : Chosen fs place last names name) : Chosen fs place last (name' :: names) name

/-- It is what a search finds that is told the truth about every other name. -/
theorem Chosen.find_eq {place : Name → Path} {last : Name} {names : List Name}
    (h : Chosen fs place last names name) :
    (names.find? fun n => !((fs (place n)).isSome && decide (n ≠ name))).getD last = name := by
  induction h with
  | last => rfl
  | found => simp
  | @next name' name names htaken _ ih =>
    by_cases heq : name' = name
    · simp [heq]
    · rw [List.find?_cons_of_neg (by simp [htaken, heq])]
      exact ih

theorem freeName_eq (seen : Name → Bool) (uuid filename : Name) :
    freeName seen uuid filename = ((tried filename .rename).find? fun name => !seen name).getD
      (fallbackName filename uuid .rename) := by
  unfold freeName
  rw [tried, List.find?_cons]
  cases seen filename with
  | false => rfl
  | true => rfl

/-- A file is overlooked: the look at its name fails, and so does the check of `finalize`.  Nothing
looks at the last resort before that check. -/
inductive Overlooked (fs : FileSystem γ) (place : Name → Path) (last : Name) :
    List Name → (ℕ → Fault) → Prop
  | last {faults : ℕ → Fault} (h : Unchecked fs (place last) faults) :
      Overlooked fs place last [] faults
  | unseen {name : Name} {names : List Name} {faults : ℕ → Fault} (hlook : faults 0 = .fails)
      (h : Unchecked fs (place name) fun n => faults (n + 1)) :
      Overlooked fs place last (name :: names) faults
  | next {name : Name} {names : List Name} {faults : ℕ → Fault} (hlook : faults 0 = .nothing)
      (htaken : (fs (place name)).isSome = true)
      (h : Overlooked fs place last names fun n => faults (n + 1)) :
      Overlooked fs place last (name :: names) faults

theorem Overlooked.fails {place : Name → Path} {last : Name} {names : List Name}
    (h : Overlooked fs place last names faults) : ∃ n, faults n = .fails := by
  induction h with
  | last h => exact ⟨0, h.check⟩
  | unseen hlook _ => exact ⟨0, hlook⟩
  | next _ _ _ ih =>
    obtain ⟨n, hn⟩ := ih
    exact ⟨n + 1, hn⟩

theorem Chosen.mem {place : Name → Path} {last : Name} {names : List Name}
    (h : Chosen fs place last names name) : name ∈ names ∨ name = last := by
  induction h with
  | last => exact .inr rfl
  | found => exact .inl List.mem_cons_self
  | next _ _ ih => exact ih.imp_left (List.mem_cons_of_mem _)

/-- Nothing is published, or the part file is moved to a chosen name, and then this was free unless
a file was overlooked. -/
def Settled (fs : FileSystem γ) (dir part : Path) (place : Name → Path) (names : List Name)
    (last : Name) (faults : ℕ → Fault) (r : Except (Abort IoError) Path × FileSystem γ) : Prop :=
  ((∃ e, r = (.error e, fs)) ∧ ¬Overlooked fs place last names faults) ∨
  ∃ name, Chosen fs place last names name ∧ r = (.ok (join dir name), moved part (place name) fs) ∧
    ((fs (place name)).isSome = true ↔ Overlooked fs place last names faults)

theorem finalize_return (final dest : Path) (faults : ℕ → Fault) :
    (do
      finalize part final false
      return dest : Program (Faulty (FileSystem γ)) (Abort IoError) Path).under fs faults =
      (((finalize part final false).under fs faults).1.map fun _ => dest,
        ((finalize part final false).under fs faults).2) := by
  unfold Program.under
  rw [Program.runFrom_bind]
  rcases (finalize part final false).runFrom ⟨fs, faults⟩ with ⟨_ | _, s⟩
  · rfl
  · rfl

theorem settled_of_finalize (hpart : fs part = some (.file content)) {names : List Name}
    {last : Name} {faults' : ℕ → Fault}
    (hchosen : Chosen fs (fun name => locate here (join dir name)) last names name)
    (hiff : Overlooked fs (fun name => locate here (join dir name)) last names faults ↔
      Unchecked fs (locate here (join dir name)) faults') :
    Settled fs dir part (fun name => locate here (join dir name)) names last faults
      ((do
        finalize part (locate here (join dir name)) false
        return join dir name : Program (Faulty (FileSystem γ)) (Abort IoError) Path).under
          fs faults') := by
  rw [finalize_return]
  rcases finalize_run hpart (locate here (join dir name)) faults' with
    ⟨⟨e, hrun⟩, hno⟩ | ⟨hrun, hyes⟩
  · exact .inl ⟨⟨e, by rw [hrun]; rfl⟩, mt hiff.1 hno⟩
  · exact .inr ⟨name, hchosen, by rw [hrun]; rfl, hyes.trans hiff.symm⟩

theorem settle_cons_run (names : List Name) (last : Name) (faults : ℕ → Fault) :
    (settle here dir part (name :: names) last).under fs faults =
      match faults 0 with
      | .crashes => (.error .crashed, fs)
      | .fails => (do
          finalize part (locate here (join dir name)) false
          return join dir name : Program (Faulty (FileSystem γ)) (Abort IoError) Path).under
            fs fun n => faults (n + 1)
      | .nothing =>
        if (fs (locate here (join dir name))).isSome then
          (settle here dir part names last).under fs fun n => faults (n + 1)
        else (do
          finalize part (locate here (join dir name)) false
          return join dir name : Program (Faulty (FileSystem γ)) (Abort IoError) Path).under
            fs fun n => faults (n + 1) := by
  unfold settle
  rw [firstFree, bind_assoc, taken, Program.under_unwrapOr_bind]
  cases faults 0 with
  | crashes => rfl
  | fails => rfl
  | nothing =>
    rw [pathExists]
    cases (fs (locate here (join dir name))).isSome with
    | false => rfl
    | true => rfl

theorem settle_run (hpart : fs part = some (.file content)) (here : List Name) (dir : Path)
    (names : List Name) (last : Name) (faults : ℕ → Fault) :
    Settled fs dir part (fun name => locate here (join dir name)) names last faults
      ((settle here dir part names last).under fs faults) := by
  induction names generalizing faults with
  | nil =>
    have hiff : Overlooked fs (fun name => locate here (join dir name)) last [] faults ↔
        Unchecked fs (locate here (join dir last)) faults :=
      ⟨fun | .last h => h, fun h => .last h⟩
    have hrun := settled_of_finalize hpart .last hiff
    simpa only [settle, firstFree, pure_bind, Option.getD_none] using hrun
  | cons name names ih =>
    rw [settle_cons_run]
    cases hfault : faults 0 with
    | crashes =>
      refine .inl ⟨⟨_, rfl⟩, ?_⟩
      rintro (_ | ⟨h, -⟩ | ⟨h, -, -⟩)
      · simp [hfault] at h
      · simp [hfault] at h
    | fails =>
      refine settled_of_finalize hpart .found ⟨?_, fun h => .unseen hfault h⟩
      rintro (_ | ⟨-, h⟩ | ⟨h, -, -⟩)
      · exact h
      · simp [hfault] at h
    | nothing =>
      dsimp only
      by_cases htaken : (fs (locate here (join dir name))).isSome = true
      · rw [if_pos htaken]
        have hnext : Overlooked fs (fun name => locate here (join dir name)) last (name :: names)
            faults ↔ Overlooked fs (fun name => locate here (join dir name)) last names
              fun n => faults (n + 1) := by
          refine ⟨?_, .next hfault htaken⟩
          rintro (_ | ⟨h, -⟩ | ⟨-, -, h⟩)
          · simp [hfault] at h
          · exact h
        rcases ih fun n => faults (n + 1) with ⟨hrun, hno⟩ | ⟨name', hchosen, hrun, hyes⟩
        · exact .inl ⟨hrun, mt hnext.1 hno⟩
        · exact .inr ⟨name', .next htaken hchosen, hrun, hyes.trans hnext.symm⟩
      · rw [if_neg htaken]
        refine settled_of_finalize hpart .found ⟨?_, fun h => ?_⟩
        · rintro (_ | ⟨h, -⟩ | ⟨-, h, -⟩)
          · simp [hfault] at h
          · exact absurd h htaken
        · obtain ⟨old, hold⟩ := h.file
          exact absurd (by rw [hold]; rfl) htaken

theorem settle_noFaults (hpart : fs part = some (.file content)) {names : List Name} {last : Name}
    (h : Chosen fs (fun name => locate here (join dir name)) last names name)
    (hfree : fs (locate here (join dir name)) = none) :
    ∃ final, ((settle here dir part names last).under fs Program.noFaults).1 = .ok final := by
  have hone : ∀ name, fs (locate here (join dir name)) = none →
      (do
        finalize part (locate here (join dir name)) false
        return join dir name : Program (Faulty (FileSystem γ)) (Abort IoError) Path).under
          fs Program.noFaults =
        (.ok (join dir name), moved part (locate here (join dir name)) fs) := by
    intro name hfree
    have hrun : (finalize part (locate here (join dir name)) false).under fs Program.noFaults =
        (.ok (), moved part (locate here (join dir name)) fs) := by
      rw [under_finalize]
      change (if (fs (locate here (join dir name))).isSome then _ else _) = _
      rw [hfree, if_neg (by simp)]
      rcases rename_run hpart (locate here (join dir name)) Program.noFaults with
        ⟨-, -, hrun⟩ | ⟨hno, -⟩
      · exact hrun
      · rw [hfree] at hno
        exact absurd hno (by simp [Program.noFaults])
    rw [finalize_return, hrun]
    rfl
  induction h with
  | last =>
    have hrun := hone last hfree
    refine ⟨join dir last, ?_⟩
    simp only [settle, firstFree, pure_bind, Option.getD_none, hrun]
  | @found name names =>
    refine ⟨join dir name, ?_⟩
    rw [settle_cons_run]
    change Prod.fst (if _ then _ else _) = _
    rw [hfree, if_neg (by simp)]
    exact congrArg Prod.fst (hone name hfree)
  | next htaken _ ih =>
    obtain ⟨final, hfinal⟩ := ih hfree
    refine ⟨final, ?_⟩
    rw [settle_cons_run]
    change Prod.fst (if _ then _ else _) = _
    rw [if_pos htaken]
    exact hfinal

/-! ### The end of a download -/

/-- The part file of a download. -/
def partOf (here : List Name) (destDir : Path) (filename : Name) : Path :=
  locate here (partPath destDir (sanitize filename))

/-- Where a name stands in the directory of a download. -/
def placeOf (here : List Name) (destDir : Path) (name : Name) : Path :=
  locate here (join (normalizeLexically destDir) name)

theorem placeOf_ne_partOf (here : List Name) (destDir : Path) (policy : CollisionPolicy)
    (h : name ∈ tried (sanitize filename) policy ∨
      name = fallbackName (sanitize filename) uuid policy) :
    placeOf here destDir name ≠ partOf here destDir filename :=
  fun heq => ne_partName policy h (name_eq_of_locate heq)

/-- **Publishing that may not overwrite.**  Whichever operations fail and wherever the process dies,
a publishing changes nothing, or it moves the part file to the first name that is not seen to be
taken and changes nothing else.  It replaces a file exactly when it overlooks one, and without
faults it succeeds exactly when a name that it would choose is free. -/
theorem publish_outcome (hpolicy : policy ≠ .overwrite)
    (hpart : fs (partOf here destDir filename) = some (.file content)) (uuid : Name)
    (faults : ℕ → Fault) {r : Except (Abort IoError) Path × FileSystem γ}
    (hr : (publish here destDir filename policy uuid).under fs faults = r) :
    ((∃ e, r = (.error e, fs)) ∨
      ∃ name, Chosen fs (placeOf here destDir) (fallbackName (sanitize filename) uuid policy)
          (tried (sanitize filename) policy) name ∧
        r.1 = .ok (join (normalizeLexically destDir) name) ∧
        r.2 (placeOf here destDir name) = some (.file content) ∧
        r.2 (partOf here destDir filename) = none ∧
        ∀ p, p ≠ placeOf here destDir name → p ≠ partOf here destDir filename → r.2 p = fs p) ∧
    ((∃ final, r.1 = .ok final ∧ (fs (locate here final)).isSome = true) ↔
      Overlooked fs (placeOf here destDir) (fallbackName (sanitize filename) uuid policy)
        (tried (sanitize filename) policy) faults) ∧
    (faults = Program.noFaults →
      ((∃ final, r.1 = .ok final) ↔
        ∃ name, Chosen fs (placeOf here destDir) (fallbackName (sanitize filename) uuid policy)
          (tried (sanitize filename) policy) name ∧ fs (placeOf here destDir name) = none)) := by
  rw [publish_eq hpolicy] at hr
  have hrun := settle_run hpart here (normalizeLexically destDir)
    (tried (sanitize filename) policy) (fallbackName (sanitize filename) uuid policy) faults
  have hno : faults = Program.noFaults → ¬Overlooked fs (placeOf here destDir)
      (fallbackName (sanitize filename) uuid policy) (tried (sanitize filename) policy) faults := by
    rintro rfl h
    obtain ⟨n, hn⟩ := h.fails
    cases hn
  rw [partOf] at hrun
  rw [hr] at hrun
  rcases hrun with ⟨⟨e, rfl⟩, hover⟩ | ⟨name, hchosen, rfl, hiff⟩
  · refine ⟨.inl ⟨e, rfl⟩, iff_of_false ?_ hover, fun hfaults => iff_of_false ?_ ?_⟩
    · rintro ⟨final, h, -⟩
      cases h
    · rintro ⟨final, h⟩
      cases h
    · rintro ⟨name, hchosen, hname⟩
      obtain ⟨final, hfinal⟩ := settle_noFaults hpart (show Chosen fs (fun name =>
        locate here (join (normalizeLexically destDir) name)) _ _ name from hchosen) hname
      rw [partOf, ← hfaults, hr] at hfinal
      cases hfinal
  · have hne := placeOf_ne_partOf here destDir policy hchosen.mem
    obtain ⟨hfinal, hgone, hrest⟩ := moved_spec hne fs
    refine ⟨.inr ⟨name, hchosen, rfl, hfinal.trans hpart, hgone, hrest⟩, ?_, fun hfaults => ?_⟩
    · refine ⟨?_, fun h => ⟨_, rfl, hiff.2 h⟩⟩
      rintro ⟨final, h, htaken⟩
      obtain rfl := Except.ok.inj h
      exact hiff.1 htaken
    · refine iff_of_true ⟨_, rfl⟩ ⟨name, hchosen, ?_⟩
      exact Option.not_isSome_iff_eq_none.1 (mt hiff.1 (hno hfaults))

/-- A publishing that succeeds moves the part file to a free name.  What was seen to be taken was
taken. -/
theorem publish_moved (hpart : fs (partOf here destDir filename) = some (.file content))
    {final : Path} {fs' : FileSystem γ}
    (hrun : (publish here destDir filename .rename uuid).under fs faults = (.ok final, fs')) :
    ∃ seen : Name → Bool, (∀ name, seen name = true → (fs (placeOf here destDir name)).isSome) ∧
      final = join (normalizeLexically destDir) (freeName seen uuid (sanitize filename)) ∧
      fs' = moved (partOf here destDir filename) (locate here final) fs := by
  rw [publish_eq (by decide)] at hrun
  have hsettled := settle_run hpart here (normalizeLexically destDir)
    (tried (sanitize filename) .rename) (fallbackName (sanitize filename) uuid .rename) faults
  rw [partOf] at hsettled
  rw [hrun] at hsettled
  rcases hsettled with ⟨⟨e, he⟩, -⟩ | ⟨name, hchosen, hmoved, -⟩
  · cases he
  · obtain ⟨hfinal, rfl⟩ := Prod.mk.inj hmoved
    obtain rfl := Except.ok.inj hfinal
    refine ⟨_, fun n hn => ?_, by rw [freeName_eq, hchosen.find_eq], rfl⟩
    simp only [Bool.and_eq_true] at hn
    exact hn.1

/-- The name `f` is in use, and the part file of another `f` is complete. -/
def usedFiles : FileSystem ℕ := fun path =>
  if path = locate [] samplePart then some (.file 1)
  else if path = locate [] sampleFinal then some (.file 0) else none

/-- It is published as `f (2)`. -/
theorem publish_outcome_second :
    ∃ final, ((publish [] [] ['f'] .rename []).under usedFiles Program.noFaults).1 = .ok final := by
  have hchosen : Chosen usedFiles (placeOf [] []) (fallbackName (sanitize ['f']) [] .rename)
      (tried (sanitize ['f']) .rename) (numbered ['f'] 2) := .next rfl .found
  exact ((publish_outcome (by decide) (rfl : usedFiles (partOf [] [] ['f']) = some (.file 1)) []
    Program.noFaults rfl).2.2 rfl).2 ⟨_, hchosen, rfl⟩

end Publishing

end SwiftLoad
