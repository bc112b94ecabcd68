import SwiftLoad.Cli.Commands
import SwiftLoad.Task.Progress

/-!
# Resuming from another resource

`cmd_resume` hands `download` what the record claims, but not the size that the claim was made for.
`resume_same_size_iff` says exactly when the claim stays with its resource.
-/

namespace SwiftLoad

open Ranges

/-! ### Downloads that exist -/

section Exists

variable {settings : Settings} {req : DownloadRequest} {pr : ProbeResult} {available : ℕ}
  {existing : Option File}

/-- No call fails unless it must, and then the first byte still lands. -/
def Env.landing : Env := { Env.calm with outcome := fun _ => ⟨true, 1⟩ }

theorem Env.quiet_landing : Env.landing.Quiet := ⟨fun _ => rfl, fun _ => rfl⟩

/-- A download with a byte to fetch may write one. -/
theorem Downloads.exists_write (hroom : noRoom req pr available = false) {q : ℕ × ℕ}
    (hq : q ∈ (setUp settings req pr existing).plan.free) (hpos : 0 < q.2) :
    ∃ answer log result offset bytes ok,
      Downloads settings req pr available existing answer log result ∧
        .write offset bytes ok ∈ log ∧ bytes ≠ [] := by
  have hk0 : 1 ≤ (setUp settings req pr existing).k0 := one_le_initialConns _ _ _ _
  obtain ⟨d, offset, hd, hleft, hsent⟩ := Drive.exists_write
    (setUp settings req pr existing).cfg (setUp settings req pr existing).govCfg 0 hk0
    (Plan.seed_slots _ _) hq hpos 0
  obtain ⟨bytes, ok, hmem, hne⟩ := Writer.exists_write_run_chunk Env.quiet_landing
    (fun _ => Nat.one_pos) (setUp settings req pr existing).completed offset
    (List.cons_ne_nil 0 []) (by decide)
  have hinbox : Inbox d [⟨.data offset [0], false⟩, ⟨.control .finish, true⟩] :=
    ⟨_, .refl _, by simp [hsent]⟩
  exact ⟨_, _, _, offset, bytes, ok, .ran (prepare_eq_ok.2 ⟨hroom, rfl⟩) 0 hd hleft .landing
    hinbox ⟨fun _ => some [], true⟩ rfl, hmem, hne⟩

theorem canonical_reconcile {completed : RangeSet} (hc : completed.Canonical) (file : File)
    (total : ℕ) : (reconcile completed existing file (some total)).Canonical := by
  unfold reconcile
  split_ifs
  · exact RangeSet.canonical_new
  · exact hc

theorem containsAll_of_drained (hc : req.completed.Canonical)
    (hplan : (setUp settings req pr existing).plan.Drained) {total : ℕ}
    (htotal : pr.totalSize = some total) :
    (setUp settings req pr existing).completed.containsAll 0 total = true := by
  have hcanon : (setUp settings req pr existing).completed.Canonical := by
    show (reconcile req.completed existing _ pr.totalSize).Canonical
    rw [htotal]
    exact canonical_reconcile hc _ total
  refine RangeSet.containsAll_of_Ico_subset hcanon ?_
  intro b hb
  by_contra hnot
  have hwork : b ∈ cover (setUp settings req pr existing).plan.ranges := by
    show b ∈ cover ((Plan.new pr.totalSize (setUp settings req pr existing).completed).seed
      (setUp settings req pr existing).k0).ranges
    rw [(Plan.valid_new _ hcanon.ordered).cover_seed, htotal,
      Plan.cover_ranges_new _ hcanon.ordered]
    exact ⟨hb.2, hnot⟩
  obtain ⟨q, hq, h₁, h₂⟩ := hwork
  have hfree : q ∈ (setUp settings req pr existing).plan.free := by
    simpa [Plan.ranges, Plan.activeSlots, hplan.slots] using hq
  have := hplan.free q hfree
  omega

/-- A download without a byte to fetch may publish what it found. -/
theorem Downloads.exists_publish (hc : req.completed.Canonical)
    (hroom : noRoom req pr available = false) (hsha : req.expectedSha256 = none)
    (hplan : (setUp settings req pr existing).plan.Drained) :
    ∃ answer log file, Downloads settings req pr available existing answer log (.ok file) := by
  have hk0 : 1 ≤ (setUp settings req pr existing).k0 := one_le_initialConns _ _ _ _
  obtain ⟨d, hd, hleft, hcancelled, hfatal, hsent⟩ := Drive.exists_end
    (setUp settings req pr existing).cfg (setUp settings req pr existing).govCfg 0 hk0 hplan
  obtain ⟨hok, hlog⟩ := Writer.run_finish Env.quiet_calm
    (setUp settings req pr existing).completed false
  have hanswer : finalRanges (Writer.run .calm (setUp settings req pr existing).completed
      [⟨.control .finish, false⟩]) = some (setUp settings req pr existing).completed := by
    simp [finalRanges, hok, hlog]
  have hconclude : ∀ part, conclude settings req pr ⟨fun _ => some [], true⟩ d
      (some (setUp settings req pr existing).completed) part = .ok part := by
    intro part
    have hcover : (pr.totalSize.any fun total =>
        !(setUp settings req pr existing).completed.containsAll 0 total) = false := by
      cases htotal : pr.totalSize with
      | none => rfl
      | some total => simp [containsAll_of_drained hc hplan htotal]
    have hsum : checksum settings req ⟨fun _ => some [], true⟩ part = none := by
      simp [checksum, hsha]
    simp [conclude, hfatal, hcancelled, hcover, hsum]
  have hinbox : Inbox d [⟨.control .finish, false⟩] := ⟨_, .refl _, by simp [hsent]⟩
  have hdl := Downloads.ran (prepare_eq_ok.2 ⟨hroom, rfl⟩) 0 hd hleft .calm hinbox
    ⟨fun _ => some [], true⟩ rfl
  rw [hanswer, hconclude] at hdl
  exact ⟨_, _, _, hdl⟩

end Exists

/-! ### The command -/

section Resume

variable {settings : Settings} {pr : ProbeResult} {available : ℕ} {existing : Option File}
  {hint : Option HostHint} {s : Store} {id : ℕ} {r : DownloadRecord}

variable (settings) in
theorem cmdResume_eq_some {r' : DownloadRecord} (hget : s.get id = some r) :
    cmdResume settings id s = some r' ↔ r.status ≠ .completed ∧ r' = r.resumed settings := by
  unfold cmdResume
  rw [hget, Option.bind_some]
  split_ifs with h
  · simp [h]
  · simp [h, eq_comm]

/-- **Resuming from another resource.**  A resumed download publishes a file only if its own probe
found the recorded size, and otherwise writes nothing, exactly when the download is complete
already, or the sizes agree, or the volume has no room. -/
theorem resume_same_size_iff (hget : s.get id = some r) (hc : r.completedRanges.Canonical) :
    (∀ r' answer log result, cmdResume settings id s = some r' →
      Downloads settings (r'.request none hint) pr available existing answer log result →
        (∀ file, result = .ok file → pr.totalSize = r.totalSize) ∧
        (pr.totalSize ≠ r.totalSize →
          (∀ offset bytes ok, .write offset bytes ok ∈ log → bytes = []) ∧
            ∀ file, result ≠ .ok file)) ↔
      r.status = .completed ∨ pr.totalSize = r.totalSize ∨
        noRoom ((r.resumed settings).request none hint) pr available = true := by
  have hcanon : ((r.resumed settings).request none hint).completed.Canonical := by
    show (r.resumeState settings.paranoidRecovery).1.Canonical
    unfold DownloadRecord.resumeState
    dsimp only
    split_ifs
    · exact RangeSet.canonical_rewindTails hc _
    · exact hc
  constructor
  · intro h
    by_contra hcond
    push Not at hcond
    obtain ⟨hopen, hsize, hroom⟩ := hcond
    have hroom : noRoom ((r.resumed settings).request none hint) pr available = false := by
      simpa using hroom
    have hresume := (cmdResume_eq_some settings hget).2 ⟨hopen, rfl⟩
    by_cases hdrained : ∀ q ∈ (setUp settings ((r.resumed settings).request none hint) pr
        existing).plan.free, q.2 = 0
    · obtain ⟨answer, log, file, hdl⟩ := Downloads.exists_publish hcanon hroom rfl
        ⟨Plan.seed_slots _ _, hdrained⟩
      exact hsize ((h _ _ _ _ hresume hdl).1 file rfl)
    · push Not at hdrained
      obtain ⟨q, hq, hpos⟩ := hdrained
      obtain ⟨answer, log, result, offset, bytes, ok, hdl, hmem, hne⟩ :=
        Downloads.exists_write hroom hq (Nat.pos_of_ne_zero hpos)
      exact hne (((h _ _ _ _ hresume hdl).2 hsize).1 offset bytes ok hmem)
  · rintro hcond r' answer log result hresume hdl
    obtain ⟨hopen, rfl⟩ := (cmdResume_eq_some settings hget).1 hresume
    rcases hcond with hcond | hcond | hcond
    · exact absurd hcond hopen
    · exact ⟨fun _ _ => hcond, fun hne => absurd hcond hne⟩
    · cases hdl with
      | refused h => exact ⟨fun file hfile => by simp at hfile, fun _ => ⟨by simp, by simp⟩⟩
      | failed => exact ⟨fun file hfile => by simp at hfile, fun _ => ⟨by simp, by simp⟩⟩
      | ran h =>
        have := (prepare_eq_ok.1 h).1
        rw [hcond] at this
        exact absurd this (by simp)

/-- A paused download of four megabytes, of which the first two are recorded. -/
def halfDone : DownloadRecord where
  id := 1
  filename := ['a']
  destDir := []
  totalSize := some (4 * 1024 * 1024)
  completedRanges := ⟨[(0, 2 * 1024 * 1024)]⟩
  status := .paused

/-- The server now has two bytes more, and the volume is full: nothing is written or published. -/
theorem resume_same_size_no_room :
    cmdResume {} 1 ⟨[halfDone]⟩ = some (halfDone.resumed {}) ∧
      ∀ answer log result, Downloads {} ((halfDone.resumed {}).request none none)
          { twoBytes with totalSize := some (4 * 1024 * 1024 + 2) } 0 none answer log result →
        (∀ offset bytes ok, .write offset bytes ok ∈ log → bytes = []) ∧
          ∀ file, result ≠ .ok file := by
  have hget : (⟨[halfDone]⟩ : Store).get 1 = some halfDone := by decide
  have hresume := (cmdResume_eq_some {} hget).2 ⟨by decide, rfl⟩
  refine ⟨hresume, ?_⟩
  intro answer log result h
  exact ((resume_same_size_iff hget (by decide)).2 (Or.inr (Or.inr (by decide))) _ _ _ _
    hresume h).2 (by decide)

/-- **Another resource is published.**  The server now has a file of one megabyte.  All of it counts
as done, so the old part file is published under its name. -/
theorem resume_other_size :
    ∃ r' answer log file, cmdResume {} 1 ⟨[halfDone]⟩ = some r' ∧
      Downloads {} (r'.request none none) { twoBytes with totalSize := some (1024 * 1024) }
        (2 ^ 30) (some ⟨4 * 1024 * 1024, fun _ => 7⟩) answer log (.ok file) ∧
      some (1024 * 1024) ≠ halfDone.totalSize := by
  have hplan : (setUp {} ((halfDone.resumed {}).request none none)
      { twoBytes with totalSize := some (1024 * 1024) }
        (some ⟨4 * 1024 * 1024, fun _ => 7⟩)).plan.Drained := ⟨by decide, by decide⟩
  have hroom : noRoom ((halfDone.resumed {}).request none none)
      { twoBytes with totalSize := some (1024 * 1024) } (2 ^ 30) = false := by decide
  obtain ⟨answer, log, file, h⟩ := Downloads.exists_publish (by decide) hroom rfl hplan
  exact ⟨_, answer, log, file, (cmdResume_eq_some {} (by decide)).2 ⟨by decide, rfl⟩, h, by decide⟩

end Resume

end SwiftLoad
