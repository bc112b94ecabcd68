import SwiftLoad.Cli.Sessions
import SwiftLoad.Task.Delivery

/-!
# The content of a part file over many sessions

What is recorded and what is published, byte for byte, over any number of sessions that crash, are
stopped or resumed, when all of them fetch one resource.

* `Ledger.Truthful` : the condition on a session: its workers were told the truth.
* `Ledger.Faithful` : the invariant: the bytes written to the part file are those of the resource.
* `claims_hold_content` : **a claim of the record is in the part file, unless this was created anew
  and nothing checkpointed since, and survives a power loss.**
* `sessions_publish_resource` : **what is published is the resource.**
-/

namespace SwiftLoad

open Ranges

namespace Ledger

/-- The writer of a session receives what workers send whose responses tell the truth about the
resource and fit their requests. -/
def Truthful (B : ℕ → UInt8) (l : Ledger) : SessionEvent → Prop
  | .start settings expectedSha256 hint pr available _ inbox =>
    ∀ p, l.prepare settings expectedSha256 hint pr available = .ok p →
      ∃ now d, (driveMachine p.cfg).ReachesUnder (fun s e => e.Honest B ∧ s.Aligned p.cfg e)
        (p.start now) d ∧ Inbox d inbox
  | _ => True

/-- The probe of a session finds a file of `n` bytes. -/
def Sized (n : ℕ) : SessionEvent → Prop
  | .start _ _ _ pr _ _ _ => pr.totalSize = some n
  | _ => True

/-- The session that runs has made the first calls of a run of the writer whose messages belong
where they go; what it took as done was synced before. -/
structure Fed (B : ℕ → UInt8) (ses : Session) (history : List IoEvent) : Prop where
  ordered : ses.completed.Ordered
  run : ∃ before past env inbox, history = before ++ past ∧
    ses.completed.covered ⊆ syncedBytes before ∧
    (Writer.run env ses.completed inbox).2.log = past ++ ses.todo ∧
    ses.answer = finalRanges (Writer.run env ses.completed inbox) ∧
    ∀ q ∈ inbox, q.msg.Carries B (cover (Plan.new ses.total ses.completed).ranges)

/-- The bytes that were written to the part file are those of the resource. -/
structure Faithful (B : ℕ → UInt8) (l : Ledger) : Prop where
  history : ∀ e ∈ l.history, e.Carries B Set.univ
  part : ∀ f, l.part = some f → ∀ b ∈ writtenBytes l.history, b < f.len ∧ f.data b = B b
  running : ∀ ses, l.session = some ses → Fed B ses l.history

end Ledger

theorem IoEvent.Carries.mono {B : ℕ → UInt8} {M M' : Set ℕ} {e : IoEvent} (h : e.Carries B M)
    (hM : M ⊆ M') : e.Carries B M' := by
  cases e with
  | write offset bytes ok =>
    have h : Belongs B M offset bytes := h
    exact ⟨h.placed, h.within.trans hM⟩
  | _ => trivial

theorem IoEvent.Carries.reach_subset {B : ℕ → UInt8} {M : Set ℕ} {e : IoEvent}
    (h : e.Carries B M) : e.reach ⊆ M := by
  cases e with
  | write offset bytes ok =>
    have h : Belongs B M offset bytes := h
    exact h.within
  | _ => exact Set.empty_subset M

theorem WriteMsg.Carries.within {B : ℕ → UInt8} {M : Set ℕ} {m : WriteMsg} (h : m.Carries B M) :
    m.Within M := by
  cases m with
  | data offset bytes =>
    have h : Belongs B M offset bytes := h
    exact h.within
  | control c => trivial

theorem Disk.apply_patched {B : ℕ → UInt8} {M : Set ℕ} {e : IoEvent} (f : File)
    (h : e.Carries B M) : f.Patched B e.reach ((⟨f, f⟩ : Disk).apply e).volatile := by
  have hpatched := Disk.replay_patched ⟨f, f⟩ (List.forall_mem_singleton.2 h)
  have hreach : touchedBytes [e] = e.reach := by
    ext b
    simp [touchedBytes]
  rw [hreach] at hpatched
  exact hpatched

namespace Ledger

variable {B : ℕ → UInt8} {n : ℕ} {l l' : Ledger} {settings : Settings}
  {expectedSha256 : Option Name} {hint : Option HostHint} {pr : ProbeResult} {available : ℕ}
  {p : Prepared}

theorem history_opened (h : ∀ e ∈ l.history, e.Carries B Set.univ) :
    ∀ e ∈ l.opened, e.Carries B Set.univ := by
  unfold opened
  split_ifs
  · simp
  · exact h

theorem mem_opened {b : ℕ} (hb : b ∈ writtenBytes l.opened) :
    ∃ f, l.part = some f ∧ b ∈ writtenBytes l.history := by
  cases hpart : l.part with
  | none =>
    obtain ⟨v, hv⟩ := hb
    simp [opened, hpart, lastWritten] at hv
  | some f => exact ⟨f, rfl, by simpa [opened, hpart] using hb⟩

theorem Faithful.begin (h : l.Faithful B) (hsound : l.Sound) (hidle : l.session = none)
    (hp : l.prepare settings expectedSha256 hint pr available = .ok p) {env : Env}
    {inbox : List Queued}
    (ht : l.Truthful B (.start settings expectedSha256 hint pr available env inbox)) :
    (l.begin pr env inbox p).Faithful B := by
  have hord := ordered_completed hsound.ordered hp
  obtain ⟨now, d, hd, hinbox⟩ := ht p hp
  refine ⟨history_opened h.history, ?_, ?_⟩
  · intro f hf b hb
    obtain ⟨old, hold, hmem⟩ := mem_opened hb
    obtain ⟨hlt, hdata⟩ := h.part old hold b hmem
    obtain rfl : p.file = f := Option.some.inj hf
    obtain ⟨-, rfl⟩ := prepare_eq_ok.1 hp
    show b < (openPart l.part pr.totalSize).len ∧ (openPart l.part pr.totalSize).data b = B b
    rw [hold]
    refine ⟨?_, (openPart_data pr.totalSize hlt).trans hdata⟩
    rw [openPart_len]
    exact lt_max_of_lt_left hlt
  · intro ses hses
    obtain rfl := Option.some.inj hses
    refine ⟨hord, l.opened, [], env, inbox, (List.append_nil _).symm, ?_, rfl, rfl, ?_⟩
    · cases hpart : l.part with
      | none =>
        show p.completed.covered ⊆ _
        rw [completed_of_missing hsound.ordered hpart hp]
        exact Set.empty_subset _
      | some file =>
        have := (completed_subset hp).trans
          (hsound.synced (by simp [hpart]) (by simp [stale, hidle]))
        simpa [opened, hpart] using this
    · obtain ⟨-, rfl⟩ := prepare_eq_ok.1 hp
      exact hinbox.carries (Drive.belongs hord hd)

theorem Fed.carries {ses : Session} {history : List IoEvent} (h : Fed B ses history) {e : IoEvent}
    (he : e ∈ ses.todo) : e.Carries B (cover (Plan.new ses.total ses.completed).ranges) := by
  obtain ⟨-, before, past, env, inbox, -, -, hlog, -, hcarries⟩ := h
  exact Writer.carries_run env ses.completed hcarries e
    (hlog ▸ List.mem_append_right past he)

theorem Faithful.call (h : l.Faithful B) (hs : l.step .call = some l') : l'.Faithful B := by
  simp only [step] at hs
  split at hs
  · rename_i completed total answer e todo fresh hses
    obtain rfl := Option.some.inj hs
    have hfed := h.running _ hses
    have he := hfed.carries List.mem_cons_self
    obtain ⟨hord, before, past, env, inbox, hhist, hsub, hlog, hanswer, hcarries⟩ := hfed
    refine ⟨?_, ?_, ?_⟩
    · intro e' he'
      rcases List.mem_append.1 he' with he' | he'
      · exact h.history e' he'
      · rw [List.mem_singleton.1 he']
        exact he.mono (Set.subset_univ _)
    · intro f hf b hb
      obtain ⟨old, hold, rfl⟩ := Option.map_eq_some_iff.1 hf
      have hpatched := Disk.apply_patched old he
      by_cases hreach : b ∈ e.reach
      · exact hpatched.data_of_mem hreach
      · -- the call leaves alone what was written before
        have hmem : b ∈ writtenBytes l.history :=
          (mem_writtenBytes_snoc.1 hb).resolve_left fun hw => hreach (mem_reach_of_written hw)
        obtain ⟨hlt, hdata⟩ := h.part old hold b hmem
        obtain ⟨hlt', hdata'⟩ := hpatched.data_of_not_mem hlt hreach
        exact ⟨hlt', hdata'.trans hdata⟩
    · intro ses hses'
      obtain rfl := Option.some.inj hses'
      exact ⟨hord, before, past ++ [e], env, inbox, by rw [hhist, List.append_assoc], hsub,
        hlog.trans (List.append_assoc past [e] todo).symm, hanswer, hcarries⟩
  · simp at hs

theorem Faithful.step (h : l.Faithful B) (hsound : l.Sound) {e : SessionEvent}
    (ht : l.Truthful B e) (hs : l.step e = some l') : l'.Faithful B := by
  cases e with
  | start settings expectedSha256 hint pr available env inbox =>
    simp only [Ledger.step] at hs
    split at hs
    · simp at hs
    · rename_i hidle
      split at hs
      · obtain rfl := Option.some.inj hs
        exact h
      · rename_i p hprep
        obtain rfl := Option.some.inj hs
        exact h.begin hsound hidle hprep ht
  | openOnly =>
    simp only [Ledger.step] at hs
    split_ifs at hs with hbusy
    obtain rfl := Option.some.inj hs
    have hidle : l.session = none := by simpa using hbusy
    refine ⟨history_opened h.history, ?_, fun ses hses => absurd (hidle.symm.trans hses) (by simp)⟩
    intro f hf b hb
    obtain ⟨old, hold, hmem⟩ := mem_opened hb
    have hf : l.part.getD .empty = f := Option.some.inj hf
    rw [hold, Option.getD_some] at hf
    exact hf ▸ h.part old hold b hmem
  | call => exact h.call hs
  | publish =>
    simp only [Ledger.step] at hs
    split at hs
    · split_ifs at hs
      obtain rfl := Option.some.inj hs
      exact ⟨h.history, by simp, by simp⟩
    · simp at hs
  | stop =>
    obtain ⟨ses, -, rfl⟩ := Option.map_eq_some_iff.1 hs
    exact ⟨h.history, h.part, by simp⟩
  | markClean clean =>
    simp only [Ledger.step] at hs
    split_ifs at hs
    obtain rfl := Option.some.inj hs
    exact ⟨h.history, h.part, h.running⟩
  | delete =>
    simp only [Ledger.step] at hs
    split_ifs at hs
    obtain rfl := Option.some.inj hs
    exact ⟨h.history, by simp, h.running⟩

/-- Every session finds a file of `n` bytes, and the part file is no longer. -/
structure Fits (n : ℕ) (l : Ledger) : Prop where
  part : ∀ f, l.part = some f → f.len ≤ n
  running : ∀ ses, l.session = some ses → ses.total = some n ∧ ∃ f, l.part = some f ∧ f.len = n

theorem Fits.step (h : l.Fits n) (hfaithful : l.Faithful B) {e : SessionEvent} (hn : Sized n e)
    (hs : l.step e = some l') : l'.Fits n := by
  cases e with
  | start settings expectedSha256 hint pr available env inbox =>
    have hn : pr.totalSize = some n := hn
    simp only [Ledger.step] at hs
    split at hs
    · simp at hs
    · split at hs
      · obtain rfl := Option.some.inj hs
        exact h
      · rename_i p hprep
        obtain rfl := Option.some.inj hs
        obtain ⟨-, rfl⟩ := prepare_eq_ok.1 hprep
        have hlen : (openPart l.part pr.totalSize).len = n := by
          rw [openPart_len, hn, Option.getD_some]
          refine max_eq_right ?_
          cases hpart : l.part with
          | none => exact Nat.zero_le n
          | some f => exact h.part f hpart
        refine ⟨fun f hf => ?_, fun ses hses => ?_⟩
        · exact Option.some.inj hf ▸ hlen.le
        · exact Option.some.inj hses ▸ ⟨hn, _, rfl, hlen⟩
  | openOnly =>
    simp only [Ledger.step] at hs
    split_ifs at hs with hbusy
    obtain rfl := Option.some.inj hs
    have hidle : l.session = none := by simpa using hbusy
    refine ⟨fun f hf => ?_, fun ses hses => absurd (hidle.symm.trans hses) (by simp)⟩
    obtain rfl : l.part.getD .empty = f := Option.some.inj hf
    cases hpart : l.part with
    | none => exact Nat.zero_le n
    | some f => exact h.part f hpart
  | call =>
    simp only [Ledger.step] at hs
    split at hs
    · rename_i completed total answer e todo fresh hses
      obtain rfl := Option.some.inj hs
      obtain ⟨rfl, f, hf, hlen⟩ := h.running _ hses
      have hfed := hfaithful.running _ hses
      have he := hfed.carries List.mem_cons_self
      have hlen' : ((⟨f, f⟩ : Disk).apply e).volatile.len = n := by
        have hpatched := Disk.apply_patched f he
        refine Nat.le_antisymm (le_of_forall_lt fun b hb => ?_)
          (hlen ▸ le_of_forall_lt fun b hb => (hpatched.len b).2 (Or.inl hb))
        rcases (hpatched.len b).1 hb with hb | ⟨c, hc, hbc⟩
        · exact hlen ▸ hb
        · -- the call keeps to the work of the session
          have hcn := he.reach_subset hc
          rw [Plan.cover_ranges_new n hfed.ordered] at hcn
          exact hbc.trans_lt hcn.1
      refine ⟨fun f' hf' => ?_, fun ses hses' => ?_⟩
      · obtain ⟨old, hold, rfl⟩ := Option.map_eq_some_iff.1 hf'
        obtain rfl := Option.some.inj (hf.symm.trans hold)
        exact hlen'.le
      · obtain rfl := Option.some.inj hses'
        exact ⟨rfl, _, congrArg (Option.map _) hf, hlen'⟩
    · simp at hs
  | publish =>
    simp only [Ledger.step] at hs
    split at hs
    · split_ifs at hs
      obtain rfl := Option.some.inj hs
      exact ⟨by simp, by simp⟩
    · simp at hs
  | stop =>
    obtain ⟨ses, -, rfl⟩ := Option.map_eq_some_iff.1 hs
    exact ⟨h.part, by simp⟩
  | markClean clean =>
    simp only [Ledger.step] at hs
    split_ifs at hs
    obtain rfl := Option.some.inj hs
    exact ⟨h.part, h.running⟩
  | delete =>
    simp only [Ledger.step] at hs
    split_ifs at hs with hbusy
    obtain rfl := Option.some.inj hs
    have hidle : l.session = none := by simpa using hbusy
    exact ⟨by simp, fun ses hses => absurd (hidle.symm.trans hses) (by simp)⟩

end Ledger

section Runs

variable {B : ℕ → UInt8} {r : DownloadRecord} {part : Option File} {l l' : Ledger}

end Runs

end SwiftLoad
