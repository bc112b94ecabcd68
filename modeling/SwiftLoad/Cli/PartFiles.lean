import SwiftLoad.Cli.Commands
import SwiftLoad.Machine.Basic

/-!
# Whose part file it is

`cmd_get` derives the part file from the output directory and the name alone, and stores a relative
directory as it was given: a record has a part file in every directory in which a command on it was
run.  `OwnedState` keeps these directories beside the state of the commands.

* `DownloadRecord.places` : the part files of a record.
* `OwnedState.unclaimed` : the condition on a step: it takes no part file of another record that is
  not completed, as its own or as the name to publish under.
* `OwnedState.Exclusive` : the invariant: records that are not completed have files of their own.
* `OwnedState.shared_of_claimed` : without the condition a command shares a part file.
* `part_files_exclusive` : **under the condition no download touches another one's part file.**
* `part_file_shared` : two `get`s of one name share a part file.
-/

namespace SwiftLoad

/-- The part files of a record, one for every directory in which a command on it was run. -/
def DownloadRecord.places {κ : Type} (locate : List Name → Path → κ)
    (dirs : ℕ → List (List Name)) (r : DownloadRecord) : List κ :=
  (dirs r.id).map fun here => locate here r.partFile

theorem DownloadRecord.places_update {κ : Type} {locate : List Name → Path → κ}
    {dirs : ℕ → List (List Name)} {r : DownloadRecord} {id : ℕ} (hne : r.id ≠ id)
    (heres : List (List Name)) :
    r.places locate (Function.update dirs id heres) = r.places locate dirs := by
  rw [places, Function.update_of_ne hne, places]

/-- The commands, and for every download the directories in which commands on it were run. -/
structure OwnedState (κ : Type) where
  cli : CliState κ
  dirs : ℕ → List (List Name)

namespace OwnedState

variable {κ : Type} [DecidableEq κ] (locate : List Name → Path → κ)

/-- The directories after an event. -/
def note (dirs : ℕ → List (List Name)) : CliEvent → ℕ → List (List Name)
  | .get g => Function.update dirs g.id [g.here]
  | .resume _ id here => Function.update dirs id (here :: dirs id)
  | _ => dirs

theorem mem_note_get (dirs : ℕ → List (List Name)) (g : GetCmd) :
    g.here ∈ note dirs (.get g) g.id := by
  rw [note, Function.update_self]
  exact List.mem_cons_self

theorem mem_note_resume (dirs : ℕ → List (List Name)) (settings : Settings) (id : ℕ)
    (here : List Name) : here ∈ note dirs (.resume settings id here) id := by
  rw [note, Function.update_self]
  exact List.mem_cons_self

/-- One step of a command, which does not read what is noted. -/
def step (s : OwnedState κ) (e : CliEvent) : Option (OwnedState κ) :=
  (s.cli.step locate e).map fun cli => ⟨cli, note s.dirs e⟩

/-- An empty database. -/
def start (files : κ → Option File) : OwnedState κ := ⟨⟨.empty, files, none⟩, fun _ => []⟩

/-- The file is a part file of a record that is not completed, and not the record `id`. -/
def claimed (s : OwnedState κ) (id : ℕ) (k : κ) : Bool :=
  s.cli.store.downloads.any fun r =>
    decide (r.id ≠ id ∧ r.status ≠ .completed ∧ k ∈ r.places locate s.dirs)

/-- Neither the part file that a command is given nor the file that a download is renamed to is
claimed by another record. -/
def unclaimed (s : OwnedState κ) : CliEvent → Bool
  | .get g => !s.claimed locate g.id (locate g.here g.record.partFile)
  | .resume _ id here =>
    (s.cli.store.get id).all fun r => !s.claimed locate id (locate here r.partFile)
  | .publish seen uuid => s.cli.process.all fun p =>
    !s.claimed locate p.record.id (locate p.here (p.record.finalFile seen uuid))
  | _ => true

end OwnedState

/-- The commands and the directories as an event machine. -/
def ownedMachine {κ : Type} [DecidableEq κ] (locate : List Name → Path → κ) :
    Machine (OwnedState κ) CliEvent :=
  ⟨OwnedState.step locate⟩

/-! ### Rows with files of their own -/

section Rows

variable {κ : Type}

/-- Records that are not completed have no file in common, and ids are not shared. -/
structure Store.Exclusive (places : DownloadRecord → List κ) (s : Store) : Prop where
  unique : ∀ a ∈ s.downloads, ∀ b ∈ s.downloads, a.id = b.id → a = b
  separate : ∀ a ∈ s.downloads, ∀ b ∈ s.downloads, a.id ≠ b.id → a.status ≠ .completed →
    b.status ≠ .completed → List.Disjoint (places a) (places b)

namespace Store

variable {s : Store} {places places' : DownloadRecord → List κ}
  {f : DownloadRecord → DownloadRecord}

/-- A change of the rows that moves no file and opens no completed record again. -/
theorem Exclusive.map (h : s.Exclusive places) (hid : ∀ r, (f r).id = r.id)
    (hplaces : ∀ r, places (f r) = places r)
    (hopen : ∀ r ∈ s.downloads, (f r).status ≠ .completed → r.status ≠ .completed) :
    (⟨s.downloads.map f⟩ : Store).Exclusive places where
  unique := by
    intro a ha b hb heq
    obtain ⟨a₀, ha₀, rfl⟩ := List.mem_map.1 ha
    obtain ⟨b₀, hb₀, rfl⟩ := List.mem_map.1 hb
    rw [hid, hid] at heq
    rw [h.unique a₀ ha₀ b₀ hb₀ heq]
  separate := by
    intro a ha b hb hne hopena hopenb
    obtain ⟨a₀, ha₀, rfl⟩ := List.mem_map.1 ha
    obtain ⟨b₀, hb₀, rfl⟩ := List.mem_map.1 hb
    rw [hid, hid] at hne
    rw [hplaces, hplaces]
    exact h.separate a₀ ha₀ b₀ hb₀ hne (hopen a₀ ha₀ hopena) (hopen b₀ hb₀ hopenb)

theorem Exclusive.update (h : s.Exclusive places) (id : ℕ) (hid : ∀ r, (f r).id = r.id)
    (hplaces : ∀ r, places (f r) = places r)
    (hopen : ∀ r ∈ s.downloads, r.id = id → r.status ≠ .completed ∨ (f r).status = r.status) :
    (s.update id f).Exclusive places := by
  refine h.map (fun r => ?_) (fun r => ?_) fun r hr => ?_ <;> split_ifs with heq
  · exact hid r
  · rfl
  · exact hplaces r
  · rfl
  · intro hopen'
    rcases hopen r hr heq with h₁ | h₁
    · exact h₁
    · rwa [h₁] at hopen'
  · exact fun hopen' => hopen'

/-- One record gets files that no other record has. -/
theorem Exclusive.grow (h : s.Exclusive places) (id : ℕ)
    (hother : ∀ r ∈ s.downloads, r.id ≠ id → places' r = places r)
    (hown : ∀ r ∈ s.downloads, r.id = id → ∀ k ∈ places' r, k ∈ places r ∨
      ∀ a ∈ s.downloads, a.id ≠ id → a.status ≠ .completed → k ∉ places a) :
    s.Exclusive places' := by
  have hapart : ∀ a ∈ s.downloads, ∀ b ∈ s.downloads, a.id = id → b.id ≠ id →
      a.status ≠ .completed → b.status ≠ .completed → List.Disjoint (places' a) (places' b) := by
    intro a ha b hb hida hidb hopena hopenb k hka hkb
    rw [hother b hb hidb] at hkb
    rcases hown a ha hida k hka with hk | hk
    · exact h.separate a ha b hb (fun heq => hidb (heq.symm.trans hida)) hopena hopenb hk hkb
    · exact hk b hb hidb hopenb hkb
  refine ⟨h.unique, fun a ha b hb hne hopena hopenb => ?_⟩
  by_cases hida : a.id = id
  · exact hapart a ha b hb hida (fun hidb => hne (hida.trans hidb.symm)) hopena hopenb
  · by_cases hidb : b.id = id
    · exact (hapart b hb a ha hidb hida hopenb hopena).symm
    · rw [hother a ha hida, hother b hb hidb]
      exact h.separate a ha b hb hne hopena hopenb

theorem Exclusive.insert (h : s.Exclusive places) {d : DownloadRecord} {s' : Store}
    (hins : s.insert d = some s') (hflag : places (d.markClean false) = places d)
    (hd : ∀ r ∈ s.downloads, r.status ≠ .completed → List.Disjoint (places r) (places d)) :
    s'.Exclusive places := by
  obtain ⟨hnew, rfl⟩ := Store.insert_eq_some_iff.1 hins
  rw [← hflag] at hd
  refine ⟨?_, ?_⟩
  · intro a ha b hb heq
    rcases List.mem_append.1 ha with ha | ha <;> rcases List.mem_append.1 hb with hb | hb
    · exact h.unique a ha b hb heq
    · rw [List.mem_singleton.1 hb] at heq
      exact absurd heq (hnew a ha)
    · rw [List.mem_singleton.1 ha] at heq
      exact absurd heq.symm (hnew b hb)
    · rw [List.mem_singleton.1 ha, List.mem_singleton.1 hb]
  · intro a ha b hb hne hopena hopenb
    rcases List.mem_append.1 ha with ha | ha <;> rcases List.mem_append.1 hb with hb | hb
    · exact h.separate a ha b hb hne hopena hopenb
    · rw [List.mem_singleton.1 hb]
      exact hd a ha hopena
    · rw [List.mem_singleton.1 ha]
      exact (hd b hb hopenb).symm
    · rw [List.mem_singleton.1 ha, List.mem_singleton.1 hb] at hne
      exact absurd rfl hne

end Store

end Rows

/-! ### Every state -/

namespace OwnedState

section Exclusive

variable {κ : Type} {locate : List Name → Path → κ} {s s' : OwnedState κ} {e : CliEvent}

/-- Records that are not completed have part files of their own, and the command that runs works on
such a record, in a directory that is noted, until it has recorded how it ended. -/
structure Exclusive (locate : List Name → Path → κ) (s : OwnedState κ) : Prop where
  store : s.cli.store.Exclusive (DownloadRecord.places locate s.dirs)
  running : ∀ p, s.cli.process = some p → ∃ r ∈ s.cli.store.downloads, r.id = p.record.id ∧
    r.partFile = p.record.partFile ∧ p.here ∈ s.dirs r.id ∧
      (p.phase ≠ .settled → r.status ≠ .completed)

theorem Exclusive.open_of_id (h : s.Exclusive locate) {p : CliProcess}
    (hp : s.cli.process = some p) {r : DownloadRecord} (hr : r ∈ s.cli.store.downloads)
    (hid : r.id = p.record.id) : p.phase ≠ .settled → r.status ≠ .completed := by
  obtain ⟨r₀, hr₀, hid₀, -, -, hopen⟩ := h.running p hp
  obtain rfl := h.store.unique r hr r₀ hr₀ (hid.trans hid₀.symm)
  exact hopen

theorem Exclusive.update (h : s.Exclusive locate) {r : DownloadRecord} {here : List Name}
    {phase phase' : RunPhase} (hp : s.cli.process = some ⟨r, phase, here⟩)
    {f : DownloadRecord → DownloadRecord} (hid : ∀ r, (f r).id = r.id)
    (hpart : ∀ r, (f r).partFile = r.partFile)
    (hold : phase ≠ .settled ∨ ∀ r, (f r).status = r.status)
    (hnew : phase' ≠ .settled → phase ≠ .settled ∧ ∀ r, r.status ≠ .completed →
      (f r).status ≠ .completed) :
    (⟨{ s.cli with
        store := s.cli.store.update r.id f
        process := some ⟨r, phase', here⟩ }, s.dirs⟩ : OwnedState κ).Exclusive locate := by
  refine ⟨h.store.update r.id hid (fun r => ?_) ?_, ?_⟩
  · simp only [DownloadRecord.places, hid, hpart]
  · intro r₀ hr₀ heq
    rcases hold with hold | hold
    · exact .inl (h.open_of_id hp hr₀ heq hold)
    · exact .inr (hold r₀)
  · intro p hp'
    obtain rfl := Option.some.inj hp'
    obtain ⟨r₀, hr₀, hid₀, hpart₀, hhere, hopen₀⟩ := h.running _ hp
    refine ⟨f r₀, Store.mem_update.2 ⟨r₀, hr₀, (if_pos hid₀).symm⟩, (hid r₀).trans hid₀,
      (hpart r₀).trans hpart₀, by rwa [hid], ?_⟩
    intro hphase
    obtain ⟨h₁, h₂⟩ := hnew hphase
    exact h₂ r₀ (hopen₀ h₁)

theorem Exclusive.clear (h : s.Exclusive locate) :
    s.cli.store.clearCleanFlags.Exclusive (DownloadRecord.places locate s.dirs) :=
  h.store.map (fun _ => rfl) (fun _ => rfl) fun _ _ hopen => hopen

theorem mem_worksOn {k : κ} (hk : k ∈ s.cli.worksOn locate e) :
    ∃ r here, s.cli.process = some ⟨r, .active, here⟩ ∧ (k = locate here r.partFile ∨
      ∃ seen uuid, e = .publish seen uuid ∧ k = locate here (r.finalFile seen uuid)) := by
  unfold CliState.worksOn at hk
  split at hk
  · rename_i r here hp
    refine ⟨r, here, hp, ?_⟩
    rcases List.mem_cons.1 hk with hk | hk
    · exact .inl hk
    · split at hk
      · exact .inr ⟨_, _, rfl, List.mem_singleton.1 hk⟩
      · cases hk
  · cases hk

variable [DecidableEq κ]

theorem exists_of_claimed {id : ℕ} {k : κ} (h : s.claimed locate id k = true) :
    ∃ r ∈ s.cli.store.clearCleanFlags.downloads, r.id ≠ id ∧ r.status ≠ .completed ∧
      k ∈ r.places locate s.dirs := by
  obtain ⟨r, hr, hclaims⟩ := List.any_eq_true.1 h
  obtain ⟨hid, hopen, hk⟩ := of_decide_eq_true hclaims
  exact ⟨r.markClean false, Store.mem_clearCleanFlags.2 ⟨r, hr, rfl⟩, hid, hopen, hk⟩

theorem not_mem_places_of_clear {id : ℕ} {k : κ} (hfree : s.claimed locate id k = false)
    {r : DownloadRecord} (hr : r ∈ s.cli.store.clearCleanFlags.downloads) (hid : r.id ≠ id)
    (hopen : r.status ≠ .completed) : k ∉ r.places locate s.dirs := by
  obtain ⟨r₀, hr₀, rfl⟩ := Store.mem_clearCleanFlags.1 hr
  intro hk
  have hother := List.any_eq_false.1 hfree r₀ hr₀
  exact hother (decide_eq_true ⟨hid, hopen, hk⟩)

/-- `get` : a new record, and its directory. -/
theorem Exclusive.get (h : s.Exclusive locate) {g : GetCmd} {store : Store}
    (hfree : s.claimed locate g.id (locate g.here g.record.partFile) = false)
    (hins : s.cli.store.clearCleanFlags.insert g.record = some store) :
    (⟨{ s.cli with store := store, process := some ⟨g.record, .begun, g.here⟩ },
      Function.update s.dirs g.id [g.here]⟩ : OwnedState κ).Exclusive locate := by
  obtain ⟨hnew, hstore⟩ := Store.insert_eq_some_iff.1 hins
  have hnew : ∀ r ∈ s.cli.store.clearCleanFlags.downloads, r.id ≠ g.id := hnew
  have hplaces : g.record.places locate (Function.update s.dirs g.id [g.here]) =
      [locate g.here g.record.partFile] := by
    simp [DownloadRecord.places, GetCmd.record]
  have hold : ∀ r ∈ s.cli.store.clearCleanFlags.downloads,
      r.places locate (Function.update s.dirs g.id [g.here]) = r.places locate s.dirs :=
    fun r hr => DownloadRecord.places_update (hnew r hr) _
  refine ⟨Store.Exclusive.insert (h.clear.grow g.id (fun r hr _ => hold r hr) ?_) hins rfl ?_, ?_⟩
  · exact fun r hr hid => absurd hid (hnew r hr)
  · intro r hr hopen
    rw [hold r hr, hplaces, List.disjoint_singleton]
    exact not_mem_places_of_clear hfree hr (hnew r hr) hopen
  · intro p hp
    obtain rfl := Option.some.inj hp
    refine ⟨g.record.markClean false, ?_, rfl, rfl, mem_note_get s.dirs g, fun _ => ?_⟩
    · rw [hstore]
      exact List.mem_append_right _ List.mem_cons_self
    · simp [GetCmd.record, DownloadRecord.markClean]

/-- `resume` : one more directory of a record. -/
theorem Exclusive.resume (h : s.Exclusive locate) {settings : Settings} {id : ℕ}
    {here : List Name} {r : DownloadRecord} (hget : s.cli.store.clearCleanFlags.get id = some r)
    (hopen : r.status ≠ .completed) (hfree : s.claimed locate id (locate here r.partFile) = false) :
    (⟨{ s.cli with
        store := s.cli.store.clearCleanFlags
        process := some ⟨r.resumed settings, .begun, here⟩ },
      Function.update s.dirs id (here :: s.dirs id)⟩ : OwnedState κ).Exclusive locate := by
  obtain ⟨hmem, hid⟩ := Store.mem_of_get hget
  have hstore : s.cli.store.clearCleanFlags.Exclusive
      (DownloadRecord.places locate (Function.update s.dirs id (here :: s.dirs id))) := by
    refine h.clear.grow id ?_ ?_
    · exact fun r' _ hne => DownloadRecord.places_update hne _
    · intro r' hr' hid' k hk
      obtain rfl := h.clear.unique r' hr' r hmem (hid'.trans hid.symm)
      rw [DownloadRecord.places, hid', Function.update_self, List.map_cons, List.mem_cons] at hk
      rcases hk with rfl | hk
      · exact .inr fun a ha hne hopena => not_mem_places_of_clear hfree ha hne hopena
      · left
        rwa [DownloadRecord.places, hid']
  refine ⟨hstore, fun p hp => ?_⟩
  obtain rfl := Option.some.inj hp
  refine ⟨r, hmem, rfl, rfl, ?_, fun _ => hopen⟩
  rw [hid]
  exact mem_note_resume s.dirs settings id here

theorem unclaimed_resume {settings : Settings} {id : ℕ} {here : List Name} {r : DownloadRecord}
    (hget : s.cli.store.clearCleanFlags.get id = some r) :
    s.unclaimed locate (.resume settings id here) =
      !s.claimed locate id (locate here r.partFile) := by
  rw [Store.get_clearCleanFlags] at hget
  obtain ⟨r₀, hr₀, rfl⟩ := Option.map_eq_some_iff.1 hget
  simp only [unclaimed, hr₀, Option.all_some]
  rfl

theorem Exclusive.step (h : s.Exclusive locate) (hfree : s.unclaimed locate e = true)
    (hs : s.step locate e = some s') : s'.Exclusive locate := by
  obtain ⟨cli, hcli, rfl⟩ := Option.map_eq_some_iff.1 hs
  cases CliState.stepped hcli with
  | opens hidle =>
    refine ⟨h.clear, fun p hp => ?_⟩
    rw [show s.cli.process = some p from hp] at hidle
    cases hidle
  | gets g store hidle hins => exact h.get (by simpa [unclaimed] using hfree) hins
  | resumes settings id here r hidle hget hopen =>
    rw [unclaimed_resume hget] at hfree
    exact h.resume hget hopen (by simpa using hfree)
  | activates r here hp =>
    exact h.update hp (fun _ => rfl) (fun _ => rfl) (Or.inl (by decide))
      fun _ => ⟨by decide, fun _ _ => by simp [DownloadRecord.setStatus]⟩
  | touches e r here file he =>
    rcases he with ⟨total, rfl⟩ | ⟨offset, bytes, rfl⟩ <;> exact ⟨h.store, h.running⟩
  | publishes => exact ⟨h.store, h.running⟩
  | checkpoints ranges bytesDone r here hp =>
    have hnext : (⟨{ s.cli with
        store := s.cli.store.update r.id (DownloadRecord.checkpoint ranges bytesDone)
        process := some ⟨r, .active, here⟩ }, s.dirs⟩ : OwnedState κ).Exclusive locate :=
      h.update hp (fun _ => rfl) (fun _ => rfl) (Or.inr fun _ => rfl)
        fun _ => ⟨by decide, fun _ hopen => hopen⟩
    rwa [← hp] at hnext
  | settles outcome r here hp =>
    exact h.update hp (fun _ => rfl) (fun _ => rfl) (Or.inl (by decide))
      fun hphase => absurd rfl hphase
  | marksClean r here hp =>
    exact ⟨h.store.update r.id (fun _ => rfl) (fun _ => rfl) fun _ _ _ => Or.inr rfl,
      fun _ hp => nomatch hp⟩
  | dies => exact ⟨h.store, fun _ hp => nomatch hp⟩

/-- A download works on no file that another record claims. -/
theorem Exclusive.not_mem_worksOn (h : s.Exclusive locate) (hfree : s.unclaimed locate e = true)
    {r : DownloadRecord} (hr : r ∈ s.cli.store.downloads) (hopen : r.status ≠ .completed)
    (hother : ∀ p, s.cli.process = some p → p.record.id ≠ r.id) {k : κ}
    (hk : k ∈ r.places locate s.dirs) : k ∉ s.cli.worksOn locate e := by
  intro hworks
  obtain ⟨r', here, hp, rfl | ⟨seen, uuid, rfl, rfl⟩⟩ := mem_worksOn hworks
  · obtain ⟨r₀, hr₀, hid₀, hpart₀, hhere, hopen₀⟩ := h.running _ hp
    refine h.store.separate r hr r₀ hr₀ ?_ hopen (hopen₀ (by simp)) hk ?_
    · exact fun heq => hother _ hp (hid₀.symm.trans heq.symm)
    · rw [← hpart₀]
      exact List.mem_map_of_mem hhere
  · simp only [unclaimed, hp, Option.all_some, Bool.not_eq_true'] at hfree
    exact List.any_eq_false.1 hfree r hr (decide_eq_true ⟨(hother _ hp).symm, hopen, hk⟩)

end Exclusive

/-- **The condition is needed.**  A `get` or a `resume` that does not meet it leaves two records
that are not completed with a part file in common. -/
theorem shared_of_claimed {κ : Type} [DecidableEq κ] {locate : List Name → Path → κ}
    {s s' : OwnedState κ} {e : CliEvent} (hs : s.step locate e = some s')
    (hclaimed : s.unclaimed locate e = false) (hpublish : ∀ seen uuid, e ≠ .publish seen uuid) :
    ∃ a ∈ s'.cli.store.downloads, ∃ b ∈ s'.cli.store.downloads, a.id ≠ b.id ∧
      a.status ≠ .completed ∧ b.status ≠ .completed ∧
        ∃ k ∈ a.places locate s'.dirs, k ∈ b.places locate s'.dirs := by
  obtain ⟨cli, hcli, rfl⟩ := Option.map_eq_some_iff.1 hs
  cases CliState.stepped hcli with
  | gets g store hidle hins =>
    obtain ⟨-, rfl⟩ := Store.insert_eq_some_iff.1 hins
    have htaken : s.claimed locate g.id (locate g.here g.record.partFile) = true := by
      simpa [unclaimed] using hclaimed
    obtain ⟨r, hr, hid, hopen, hk⟩ := exists_of_claimed htaken
    refine ⟨r, List.mem_append_left _ hr, _, List.mem_append_right _ List.mem_cons_self, hid,
      hopen, by simp [GetCmd.record], locate g.here g.record.partFile, ?_, ?_⟩
    · rwa [note, DownloadRecord.places_update hid]
    · exact List.mem_map.2 ⟨_, mem_note_get s.dirs g, rfl⟩
  | resumes settings id here r hidle hget hopen =>
    obtain ⟨hmem, rfl⟩ := Store.mem_of_get hget
    rw [unclaimed_resume hget, Bool.not_eq_false'] at hclaimed
    obtain ⟨a, ha, hid, hopen', hk⟩ := exists_of_claimed hclaimed
    refine ⟨a, ha, r, hmem, hid, hopen', hopen, locate here r.partFile, ?_, ?_⟩
    · rwa [note, DownloadRecord.places_update hid]
    · exact List.mem_map.2 ⟨_, mem_note_resume s.dirs settings r.id here, rfl⟩
  | publishes seen uuid => exact absurd rfl (hpublish seen uuid)
  | touches e r here file he =>
    rcases he with ⟨total, rfl⟩ | ⟨offset, bytes, rfl⟩ <;> simp [unclaimed] at hclaimed
  | _ => simp [unclaimed] at hclaimed

end OwnedState

/-- **Part files.**  As long as neither the part file that a command is given nor the file that a
download is renamed to is one of another record that is not completed, in every state two records
that are not completed have no part file in common, in whatever directories commands on them were
run, and no step changes a part file of such a record unless the command that runs is its own. -/
theorem part_files_exclusive {κ : Type} [DecidableEq κ] {locate : List Name → Path → κ}
    {files : κ → Option File} {s : OwnedState κ}
    (h : (ownedMachine locate).ReachesUnder (fun s e => s.unclaimed locate e = true)
      (OwnedState.start files) s) :
    (∀ a ∈ s.cli.store.downloads, ∀ b ∈ s.cli.store.downloads, a.id ≠ b.id →
      a.status ≠ .completed → b.status ≠ .completed →
        List.Disjoint (a.places locate s.dirs) (b.places locate s.dirs)) ∧
    ∀ e s', s.unclaimed locate e = true → (ownedMachine locate).step s e = some s' →
      ∀ r ∈ s.cli.store.downloads, r.status ≠ .completed →
        (∀ p, s.cli.process = some p → p.record.id ≠ r.id) →
          ∀ k ∈ r.places locate s.dirs, s'.cli.files k = s.cli.files k := by
  have hexcl : s.Exclusive locate := h.invariant
    ⟨⟨by simp [OwnedState.start, Store.empty], by simp [OwnedState.start, Store.empty]⟩,
      fun _ hp => nomatch hp⟩
    fun _ _ _ ih hp hst => ih.step hp hst
  refine ⟨hexcl.store.separate, ?_⟩
  intro e s' hfree hst r hr hopen hother k hk
  obtain ⟨cli, hcli, rfl⟩ := Option.map_eq_some_iff.1 hst
  exact CliState.files_of_step hcli (hexcl.not_mem_worksOn hfree hr hopen hother hk)

/-- Two downloads of one name in two directories, the second killed while it runs; then the first
goes on. -/
def twoDirectories : List CliEvent :=
  pausedGet (getNamed 1 ['a'] [['x']]) ++
    [.get (getNamed 2 ['a'] [['y']]), .activate, .openPart (some 2), .kill,
      .resume {} 1 [['x']], .activate, .openPart (some 2), .write 1 [2]]

/-- Their records name one path.  They have no part file in common, and when the first is published
the part file of the second stays as it is. -/
theorem part_files_exclusive_named :
    ∃ s s' a b, (ownedMachine Publishing.locate).exec (OwnedState.start fun _ => none)
        twoDirectories = some s ∧
      s.cli.store.downloads = [a, b] ∧ a.partFile = b.partFile ∧
      List.Disjoint (a.places Publishing.locate s.dirs) (b.places Publishing.locate s.dirs) ∧
      (ownedMachine Publishing.locate).step s (.publish (fun _ => false) []) = some s' ∧
      ∀ k ∈ b.places Publishing.locate s.dirs, s'.cli.files k = s.cli.files k := by
  have hrun : ((ownedMachine Publishing.locate).execUnder
      (fun s e => s.unclaimed Publishing.locate e = true) (OwnedState.start fun _ => none)
      twoDirectories).map (fun s => (
        s.cli.store.downloads.map fun r => (r.id, r.partFile, r.status),
        s.cli.process.map fun p => p.record.id,
        s.unclaimed Publishing.locate (.publish (fun _ => false) []),
        ((ownedMachine Publishing.locate).step s (.publish (fun _ => false) [])).isSome)) =
          some ([(1, (getNamed 1 ['a']).record.partFile, .active),
            (2, (getNamed 2 ['a']).record.partFile, .active)], some 1, true, true) := by
    decide +kernel
  obtain ⟨s, hs, hres⟩ := Option.map_eq_some_iff.1 hrun
  simp only [Prod.mk.injEq] at hres
  obtain ⟨hrows, hproc, hfree, hstep⟩ := hres
  obtain ⟨s', hs'⟩ := Option.isSome_iff_exists.1 hstep
  rcases hds : s.cli.store.downloads with _ | ⟨a, _ | ⟨b, _ | ⟨c, l⟩⟩⟩ <;> rw [hds] at hrows <;>
    simp at hrows
  obtain ⟨⟨ha, hparta, hopena⟩, hb, hpartb, hopenb⟩ := hrows
  obtain ⟨hapart, hkept⟩ := part_files_exclusive (Machine.reachesUnder_of_execUnder hs)
  refine ⟨s, s', a, b, Machine.exec_of_execUnder hs, hds, by rw [hparta, hpartb]; rfl, ?_, hs', ?_⟩
  · exact hapart a (by simp [hds]) b (by simp [hds]) (by rw [ha, hb]; decide)
      (by rw [hopena]; decide) (by rw [hopenb]; decide)
  · refine hkept _ s' hfree hs' b (by simp [hds]) (by rw [hopenb]; decide) fun p hp => ?_
    rw [hp, Option.map_some, Option.some.injEq] at hproc
    rw [hproc, hb]
    decide

/-- **A shared part file.**  While one download is paused, a second one of the same name writes to
the same part file, and the first record claims the byte that it has changed. -/
theorem part_file_shared :
    ∃ s a b k, (ownedMachine Publishing.locate).Reaches (OwnedState.start fun _ => none) s ∧
      s.cli.store.downloads = [a, b] ∧ a.id ≠ b.id ∧ a.status = .paused ∧ b.status = .active ∧
      k ∈ a.places Publishing.locate s.dirs ∧ k ∈ b.places Publishing.locate s.dirs ∧
      a.completedRanges = ⟨[(0, 1)]⟩ ∧ (s.cli.files k).map (fun f => f.data 0) = some 9 := by
  have hrun : ((ownedMachine Publishing.locate).exec (OwnedState.start fun _ => none)
      (pausedGet (getNamed 1 ['a']) ++
        [.get (getNamed 2 ['a']), .activate, .openPart (some 2), .write 0 [9]])).map
        (fun s => (s.cli.store.downloads, decide ([] ∈ s.dirs 1 ∧ [] ∈ s.dirs 2),
          (s.cli.files (Publishing.locate [] (getNamed 1 ['a']).record.partFile)).map
            fun f => f.data 0)) =
          some ([{ (getNamed 1 ['a']).record with
              status := .paused, bytesDone := 1, completedRanges := ⟨[(0, 1)]⟩ },
            { (getNamed 2 ['a']).record with status := .active }], true, some 9) := by
    decide +kernel
  obtain ⟨s, hs, hres⟩ := Option.map_eq_some_iff.1 hrun
  simp only [Prod.mk.injEq] at hres
  obtain ⟨hrows, hdirs, hbyte⟩ := hres
  obtain ⟨hone, htwo⟩ := of_decide_eq_true hdirs
  refine ⟨s, _, _, _, Machine.reaches_of_exec hs, hrows, by decide, rfl, rfl, ?_, ?_, rfl, hbyte⟩
  · exact List.mem_map.2 ⟨[], hone, rfl⟩
  · exact List.mem_map.2 ⟨[], htwo, rfl⟩

end SwiftLoad
