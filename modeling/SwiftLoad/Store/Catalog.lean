import SwiftLoad.Store.Tables

/-!
# What the store is for

A `Catalog` is the store as its callers see it: a record for each id, the chain of its URLs, and
what is known of each host.

* `Catalog.Does` : what a call answers, and what it changes.
* `Runs.kept` : what a sequence of calls leaves of a download that it does not delete.
* `Runs.host_eq` : what is known of a host.
-/

namespace SwiftLoad

open Tables (Op Returns)

namespace StoredRecord

/-- The record after a checkpoint. -/
def checkpointed (ranges : RangeSet) (bytesDone : ℕ) (d : StoredRecord) : StoredRecord :=
  { d with completedRanges := ranges, bytesDone := bytesDone }

/-- The record with another status. -/
def withStatus (status : DownloadStatus) (error : Option String) (now : ℤ) (d : StoredRecord) :
    StoredRecord :=
  { d with
    status := status
    errorMessage := error
    completedAt := if status = .completed then some now else d.completedAt }

/-- The record with the clean flag set or cleared. -/
def cleaned (clean : Bool) (d : StoredRecord) : StoredRecord := { d with cleanShutdown := clean }

/-- The record with another URL. -/
def swapped (newUrl resolved : String) (etag lastModified : Option String) (totalSize : Option ℕ)
    (acceptRanges : ℤ) (validation : ValidationState) (d : StoredRecord) : StoredRecord :=
  { d with
    currentUrl := newUrl
    finalUrl := resolved
    urlRefreshCount := d.urlRefreshCount + 1
    etag := etag
    lastModified := lastModified
    totalSize := totalSize <|> d.totalSize
    acceptRanges := acceptRanges
    validationState := validation
    status := .queued
    errorMessage := none }

/-- What never changes: the record without what the calls set. -/
def identity (d : StoredRecord) : StoredRecord :=
  { d with
    currentUrl := ""
    finalUrl := ""
    urlRefreshCount := 0
    totalSize := none
    bytesDone := 0
    completedRanges := .new
    status := .queued
    acceptRanges := 0
    etag := none
    lastModified := none
    validationState := .notRequired
    errorMessage := none
    completedAt := none
    cleanShutdown := false }

/-- The progress of a download. -/
def progress (d : StoredRecord) : RangeSet × ℕ := (d.completedRanges, d.bytesDone)

end StoredRecord

/-- The store as its callers see it. -/
@[ext] structure Catalog where
  record : ℕ → Option StoredRecord
  chain : ℕ → List TimedEntry
  host : String → Option HostProfile

namespace Catalog

/-- An empty catalog. -/
def empty : Catalog := ⟨fun _ => none, fun _ => [], fun _ => none⟩

/-- Change the record with this id. -/
def modify (id : ℕ) (g : StoredRecord → StoredRecord) (c : Catalog) : Catalog :=
  { c with record := Function.update c.record id ((c.record id).map g) }

/-- The URL as it is kept. -/
def entry (lib : UrlLib) (id seq : ℕ) (url : String) (source : UrlSource) (outcome : String)
    (bytesAtSwap : ℕ) (now : ℤ) : TimedEntry where
  downloadId := id
  seq := seq
  urlRedacted := Redact.redact lib url
  host := Redact.hostOf lib url
  source := source.asStr
  outcome := outcome
  bytesDoneAtSwap := bytesAtSwap
  addedAt := now

/-- Append a URL to the chain of a download. -/
def append (lib : UrlLib) (id : ℕ) (url : String) (source : UrlSource) (outcome : String)
    (bytesAtSwap : ℕ) (now : ℤ) (c : Catalog) : Catalog :=
  { c with chain := Function.update c.chain id (c.chain id ++
      [entry lib id (c.chain id).length url source outcome bytesAtSwap now]) }

/-- The records that satisfy `P`, each once, the newest first. -/
structure Lists (c : Catalog) (P : StoredRecord → Prop) (ds : List StoredRecord) : Prop where
  nodup : ds.Nodup
  mem : ∀ d, d ∈ ds ↔ c.record d.id = some d ∧ P d
  newest : ds.Pairwise fun a b => b.createdAt ≤ a.createdAt

/-- What a call answers, and what it makes of the catalog. -/
def Does (lib : UrlLib) (c : Catalog) : Op → Except TableError Returns → Catalog → Prop
  | .insert d now, reply, c' =>
    if (c.record d.id).isSome ∨ ¬d.Fits then reply = .error .sql ∧ c' = c
    else reply = .ok .done ∧
      c' = append lib d.id d.originalUrl .user "initial" 0 now
        { c with record := Function.update c.record d.id (some d.fresh) }
  | .checkpoint id ranges bytesDone, reply, c' =>
    if ¬sqlFits bytesDone then reply = .error .sql ∧ c' = c
    else if c.record id = none then reply = .error (.notFound id) ∧ c' = c
    else reply = .ok .done ∧ c' = c.modify id (StoredRecord.checkpointed ranges bytesDone)
  | .get id, reply, c' => reply = .ok (.record (c.record id)) ∧ c' = c
  | .list filter, reply, c' =>
    (∃ ds, reply = .ok (.records ds) ∧ c.Lists (fun d => ∀ s ∈ filter, d.status = s) ds) ∧ c' = c
  | .setStatus id status error now, reply, c' => reply = .ok .done ∧
      c' = c.modify id (StoredRecord.withStatus status error now)
  | .markClean id clean, reply, c' => reply = .ok .done ∧
      c' = c.modify id (StoredRecord.cleaned clean)
  | .clearCleanFlags, reply, c' => reply = .ok .done ∧
      c' = { c with record := fun id => (c.record id).map (StoredRecord.cleaned false) }
  | .swapUrl id newUrl resolved etag lastModified totalSize acceptRanges validation outcome now,
      reply, c' =>
    match c.record id with
    | none => reply = .error .sql ∧ c' = c
    | some d =>
      if ¬totalSize.all sqlFits then reply = .error .sql ∧ c' = c
      else reply = .ok .done ∧
        c' = append lib id newUrl .user outcome d.bytesDone now (c.modify id
          (StoredRecord.swapped newUrl resolved etag lastModified totalSize acceptRanges
            validation))
  | .pushUrlHistory id url source outcome bytesAtSwap now, reply, c' =>
    if c.record id = none then reply = .error .sql ∧ c' = c
    else reply = .ok .done ∧ c' = c.append lib id url source outcome bytesAtSwap now
  | .urlHistory id, reply, c' => reply = .ok (.history (c.chain id)) ∧ c' = c
  | .findResumableByHint hint, reply, c' =>
    (∃ ds, reply = .ok (.records ds) ∧ c.Lists (fun d => d.identityHint = hint ∧ d.status ∈
      [.paused, .failed, .needsAttention, .waitingNetwork, .queued]) ds) ∧ c' = c
  | .resumeState id paranoid, reply, c' =>
    (reply = match c.record id with
      | none => .error (.notFound id)
      | some d => .ok (.resume (d.resumeState paranoid).1 (d.resumeState paranoid).2)) ∧ c' = c
  | .recordHostProfile host bestConns bestBps saturated _, reply, c' => reply = .ok .done ∧
      c' = { c with host := Function.update c.host host (some
        { host := host
          bestObservedConns := some bestConns
          bestObservedBps := some bestBps
          saturationDetected := saturated
          samples := (c.host host).elim 0 HostProfile.samples + 1 }) }
  | .hostProfile host, reply, c' => reply = .ok (.profile (c.host host)) ∧ c' = c
  | .delete id, reply, c' => reply = .ok .done ∧
      c' = { c with
        record := Function.update c.record id none
        chain := Function.update c.chain id [] }

/-- A sequence of calls, with their answers. -/
inductive Runs (lib : UrlLib) :
    Catalog → List Op → List (Except TableError Returns) → Catalog → Prop
  | nil (c : Catalog) : Runs lib c [] [] c
  | cons {c c₁ c' : Catalog} {op : Op} {ops : List Op} {reply : Except TableError Returns}
      {replies : List (Except TableError Returns)} (h : c.Does lib op reply c₁)
      (hrest : Runs lib c₁ ops replies c') : Runs lib c (op :: ops) (reply :: replies) c'

/-! ### What a call leaves of a download -/

/-- The progress of a download after a call: only a checkpoint of its own moves it. -/
def progressAfter (id : ℕ) : Op → RangeSet × ℕ → RangeSet × ℕ
  | .checkpoint i ranges bytesDone, p =>
    if i = id ∧ sqlFits bytesDone then (ranges, bytesDone) else p
  | _, p => p

/-- A record that is still the same download. -/
structure Kept (id : ℕ) (c : Catalog) (d : StoredRecord) (p : RangeSet × ℕ) (c' : Catalog)
    (d' : StoredRecord) : Prop where
  record : c'.record id = some d'
  identity : d'.identity = d.identity
  progress : d'.progress = p
  chain : c.chain id <+: c'.chain id

section Keep

variable {lib : UrlLib} {c c' : Catalog} {op : Op} {ops : List Op}
  {reply : Except TableError Returns}
  {replies : List (Except TableError Returns)} {id i : ℕ} {d : StoredRecord}

theorem kept_modify {g : StoredRecord → StoredRecord} (hd : c.record id = some d)
    (hid : (g d).identity = d.identity) :
    Kept id c d (if i = id then (g d).progress else d.progress) (c.modify i g)
      (if i = id then g d else d) := by
  refine ⟨?_, ?_, ?_, List.prefix_rfl⟩
  · by_cases hi : i = id
    · subst hi
      simp [modify, hd]
    · rw [if_neg hi]
      show Function.update c.record i _ id = _
      rw [Function.update_of_ne (Ne.symm hi), hd]
  · split_ifs
    · exact hid
    · rfl
  · split_ifs <;> rfl

theorem prefix_append (lib : UrlLib) (id i : ℕ) (url : String) (source : UrlSource)
    (outcome : String) (bytesAtSwap : ℕ) (now : ℤ) (c : Catalog) :
    c.chain id <+: (append lib i url source outcome bytesAtSwap now c).chain id := by
  show c.chain id <+: Function.update c.chain i _ id
  by_cases hi : id = i
  · subst hi
    rw [Function.update_self]
    exact List.prefix_append _ _
  · rw [Function.update_of_ne hi]

theorem Kept.append {p : RangeSet × ℕ} {d' : StoredRecord} (h : Kept id c d p c' d') (i : ℕ)
    (url : String) (source : UrlSource) (outcome : String) (bytesAtSwap : ℕ) (now : ℤ) :
    Kept id c d p (c'.append lib i url source outcome bytesAtSwap now) d' :=
  ⟨h.record, h.identity, h.progress,
    h.chain.trans (prefix_append lib id i url source outcome _ _ _)⟩

/-- What leaves the record and the chain of a download keeps it. -/
theorem Kept.of_same (hd : c'.record id = some d) (hchain : c'.chain id = c.chain id) :
    Kept id c d d.progress c' d :=
  ⟨hd, rfl, rfl, hchain ▸ List.prefix_rfl⟩

/-- A change of one record that leaves its progress. -/
theorem exists_kept_modify {g : StoredRecord → StoredRecord} (i : ℕ) (hd : c.record id = some d)
    (hid : (g d).identity = d.identity) (hp : (g d).progress = d.progress) :
    ∃ d', Kept id c d d.progress (c.modify i g) d' := by
  have hkept := kept_modify (i := i) hd hid
  rw [hp, ite_self] at hkept
  exact ⟨_, hkept⟩

/-- A swap of URLs changes the record of its download and appends to its chain, or fails. -/
theorem Does.swapUrl_cases {newUrl resolved : String} {etag lastModified : Option String}
    {totalSize : Option ℕ} {acceptRanges : ℤ} {validation : ValidationState} {outcome : String}
    {now : ℤ} (h : c.Does lib (.swapUrl i newUrl resolved etag lastModified totalSize acceptRanges
      validation outcome now) reply c') :
    c' = c ∨ ∃ bytesAtSwap, c' = append lib i newUrl .user outcome bytesAtSwap now (c.modify i
      (StoredRecord.swapped newUrl resolved etag lastModified totalSize acceptRanges
        validation)) := by
  rw [Does] at h
  cases hrow : c.record i with
  | none =>
    rw [hrow] at h
    exact .inl h.2
  | some d =>
    rw [hrow] at h
    dsimp only at h
    split_ifs at h
    · exact .inr ⟨d.bytesDone, h.2⟩
    · exact .inl h.2

/-- A call that does not delete a download keeps it. -/
theorem Does.kept (h : c.Does lib op reply c') (hdel : op ≠ .delete id)
    (hd : c.record id = some d) :
    ∃ d', Kept id c d (progressAfter id op d.progress) c' d' := by
  have hsame : c' = c → ∃ d', Kept id c d d.progress c' d' := by
    rintro rfl
    exact ⟨d, .of_same hd rfl⟩
  cases op with
  | insert d₀ now =>
    rw [Does] at h
    split_ifs at h with hbad
    · exact hsame h.2
    · have hne : id ≠ d₀.id := by
        rintro rfl
        exact hbad (.inl (by rw [hd]; rfl))
      have hrow : (Function.update c.record d₀.id (some d₀.fresh)) id = some d := by
        rw [Function.update_of_ne hne, hd]
      have hkept : Kept id c d d.progress
          { c with record := Function.update c.record d₀.id (some d₀.fresh) } d :=
        .of_same hrow rfl
      rw [h.2]
      exact ⟨d, hkept.append d₀.id d₀.originalUrl .user "initial" 0 now⟩
  | checkpoint i ranges bytesDone =>
    rw [Does] at h
    split_ifs at h with hfit hrow
    · have hne : i ≠ id := by
        rintro rfl
        rw [hd] at hrow
        simp at hrow
      rw [progressAfter, if_neg fun h => hne h.1]
      exact hsame h.2
    · have hp : progressAfter id (.checkpoint i ranges bytesDone) d.progress =
          if i = id then (d.checkpointed ranges bytesDone).progress else d.progress := by
        simp [progressAfter, hfit, StoredRecord.progress, StoredRecord.checkpointed]
      rw [h.2, hp]
      exact ⟨_, kept_modify hd rfl⟩
    · rw [progressAfter, if_neg fun h => hfit h.2]
      exact hsame h.2
  | setStatus i status error now =>
    obtain ⟨-, rfl⟩ := h
    exact exists_kept_modify i hd rfl rfl
  | markClean i clean =>
    obtain ⟨-, rfl⟩ := h
    exact exists_kept_modify i hd rfl rfl
  | clearCleanFlags =>
    obtain ⟨-, rfl⟩ := h
    exact ⟨d.cleaned false, by simp [hd], rfl, rfl, List.prefix_rfl⟩
  | swapUrl i newUrl resolved etag lastModified totalSize acceptRanges validation outcome now =>
    rcases h.swapUrl_cases with hc | ⟨bytesAtSwap, rfl⟩
    · exact hsame hc
    · obtain ⟨d', hkept⟩ := exists_kept_modify (g := StoredRecord.swapped newUrl resolved etag
        lastModified totalSize acceptRanges validation) i hd rfl rfl
      exact ⟨d', hkept.append i newUrl .user outcome bytesAtSwap now⟩
  | pushUrlHistory i url source outcome bytesAtSwap now =>
    rw [Does] at h
    split_ifs at h with hrow
    · exact hsame h.2
    · have hkept : Kept id c d d.progress c d := .of_same hd rfl
      exact ⟨d, h.2 ▸ hkept.append i url source outcome bytesAtSwap now⟩
  | recordHostProfile host bestConns bestBps saturated now =>
    obtain ⟨-, rfl⟩ := h
    exact ⟨d, .of_same hd rfl⟩
  | delete i =>
    have hne : id ≠ i := fun heq => hdel (heq ▸ rfl)
    obtain ⟨-, rfl⟩ := h
    refine ⟨d, .of_same ?_ (Function.update_of_ne hne _ _)⟩
    show Function.update c.record i none id = _
    rw [Function.update_of_ne hne, hd]
  | get i => exact hsame h.2
  | list filter => exact hsame h.2
  | urlHistory i => exact hsame h.2
  | findResumableByHint hint => exact hsame h.2
  | resumeState i paranoid => exact hsame h.2
  | hostProfile host => exact hsame h.2

theorem Runs.kept (h : Runs lib c ops replies c') (hdel : .delete id ∉ ops)
    (hd : c.record id = some d) :
    ∃ d', Kept id c d (ops.foldl (fun p op => progressAfter id op p) d.progress) c' d' := by
  induction h generalizing d with
  | nil c => exact ⟨d, .of_same hd rfl⟩
  | cons h _ ih =>
    rw [List.mem_cons, not_or] at hdel
    obtain ⟨d₁, h₁⟩ := h.kept (Ne.symm hdel.1) hd
    obtain ⟨d', h'⟩ := ih hdel.2 h₁.record
    refine ⟨d', h'.record, h'.identity.trans h₁.identity, ?_, h₁.chain.trans h'.chain⟩
    rw [h'.progress, h₁.progress]
    rfl

end Keep

/-! ### What is known of a host -/

/-- What the calls record about a host, in order. -/
def learned (host : String) : List Op → List (ℕ × ℕ × Bool) :=
  List.filterMap fun
    | .recordHostProfile h bestConns bestBps saturated _ =>
      if h = host then some (bestConns, bestBps, saturated) else none
    | _ => none

/-- The profile after some downloads from the host. -/
def profileOf (host : String) (l : List (ℕ × ℕ × Bool)) : Option HostProfile :=
  l.getLast?.map fun p => ⟨host, some p.1, some p.2.1, p.2.2, l.length⟩

section Hosts

variable {lib : UrlLib} {c c' : Catalog} {op : Op} {ops : List Op}
  {reply : Except TableError Returns}
  {replies : List (Except TableError Returns)} {host : String} {l : List (ℕ × ℕ × Bool)}

theorem learned_cons (op : Op) (ops : List Op) :
    learned host (op :: ops) = learned host [op] ++ learned host ops := by
  unfold learned
  rw [← List.filterMap_append]
  rfl

theorem samples_profileOf (host : String) (l : List (ℕ × ℕ × Bool)) :
    (profileOf host l).elim 0 HostProfile.samples = l.length := by
  rcases List.eq_nil_or_concat l with rfl | ⟨l, p, rfl⟩
  · rfl
  · simp [profileOf]

theorem Does.host_eq (h : c.Does lib op reply c') (hl : c.host host = profileOf host l) :
    c'.host host = profileOf host (l ++ learned host [op]) := by
  have hsame : c'.host = c.host → learned host [op] = [] →
      c'.host host = profileOf host (l ++ learned host [op]) := by
    intro hc hop
    rw [hop, List.append_nil, hc, hl]
  cases op with
  | recordHostProfile i bestConns bestBps saturated now =>
    obtain ⟨-, rfl⟩ := h
    show Function.update c.host i _ host = _
    by_cases hi : i = host
    · subst hi
      rw [Function.update_self, hl, samples_profileOf]
      simp [learned, profileOf]
    · rw [Function.update_of_ne (Ne.symm hi), hl]
      simp [learned, hi]
  | insert d now =>
    rw [Does] at h
    split_ifs at h <;> exact hsame (congrArg Catalog.host h.2 :) rfl
  | checkpoint i ranges bytesDone =>
    rw [Does] at h
    split_ifs at h <;> exact hsame (congrArg Catalog.host h.2 :) rfl
  | swapUrl i newUrl resolved etag lastModified totalSize acceptRanges validation outcome now =>
    rcases h.swapUrl_cases with rfl | ⟨bytesAtSwap, rfl⟩
    · exact hsame rfl rfl
    · exact hsame rfl rfl
  | pushUrlHistory i url source outcome bytesAtSwap now =>
    rw [Does] at h
    split_ifs at h <;> exact hsame (congrArg Catalog.host h.2 :) rfl
  | setStatus i status error now => exact hsame (congrArg Catalog.host h.2 :) rfl
  | markClean i clean => exact hsame (congrArg Catalog.host h.2 :) rfl
  | clearCleanFlags => exact hsame (congrArg Catalog.host h.2 :) rfl
  | delete i => exact hsame (congrArg Catalog.host h.2 :) rfl
  | get i => exact hsame (congrArg Catalog.host h.2 :) rfl
  | list filter => exact hsame (congrArg Catalog.host h.2 :) rfl
  | urlHistory i => exact hsame (congrArg Catalog.host h.2 :) rfl
  | findResumableByHint hint => exact hsame (congrArg Catalog.host h.2 :) rfl
  | resumeState i paranoid => exact hsame (congrArg Catalog.host h.2 :) rfl
  | hostProfile host => exact hsame (congrArg Catalog.host h.2 :) rfl

/-- What is known of a host after a sequence of calls. -/
theorem Runs.host_eq (h : Runs lib c ops replies c') (hl : c.host host = profileOf host l) :
    c'.host host = profileOf host (l ++ learned host ops) := by
  induction h generalizing l with
  | nil c => rwa [show learned host [] = [] from rfl, List.append_nil]
  | cons h _ ih =>
    rw [learned_cons, ← List.append_assoc]
    exact ih (h.host_eq hl)

end Hosts

end Catalog

end SwiftLoad
