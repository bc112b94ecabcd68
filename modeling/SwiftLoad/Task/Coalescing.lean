import SwiftLoad.Task.Writer
import SwiftLoad.Util.Canonical
import SwiftLoad.Http.Errors

/-!
# Coalescing is invisible

The writer buffers what it finds in its queue, sorts it, and merges chunks that touch into one
write.  Its specification is a writer that does none of this: `Plain` puts each chunk into the
file as it arrives and counts it as done.

When no call fails, both leave the same file and the same set, whatever the payloads' offsets and
overlaps are, as long as every payload is a slice of one resource `B`: a file is then determined
by the set of positions that have been written (`File.Patched`), and so is a set of ranges.

* `chunks`, `asked` : what is sent before the writer is told to finish, and what had been sent at
  each `Sync` or `Finish`.
* `coalescing_refines_plain` : **the writer refines the plain one.**
-/

namespace SwiftLoad

open Ranges

/-- The ranges of a list of chunks. -/
def rangesOf (l : List (ℕ × List UInt8)) : List (ℕ × ℕ) := l.map fun c => (c.1, c.2.length)

@[simp] theorem rangesOf_nil : rangesOf [] = [] := rfl

@[simp] theorem rangesOf_cons (c : ℕ × List UInt8) (l : List (ℕ × List UInt8)) :
    rangesOf (c :: l) = (c.1, c.2.length) :: rangesOf l := rfl

@[simp] theorem rangesOf_append (l l' : List (ℕ × List UInt8)) :
    rangesOf (l ++ l') = rangesOf l ++ rangesOf l' := List.map_append

theorem Placed.append {B : ℕ → UInt8} {offset : ℕ} {bytes bytes' : List UInt8}
    (h : Placed B offset bytes) (h' : Placed B (offset + bytes.length) bytes') :
    Placed B offset (bytes ++ bytes') := by
  intro i v hi
  rw [List.getElem?_append] at hi
  split_ifs at hi with hlt
  · exact h i v hi
  · have hv := h' _ v hi
    rw [hv]
    congr 1; omega

theorem placed_slice (B : ℕ → UInt8) (offset n : ℕ) :
    Placed B offset ((List.range n).map fun i => B (offset + i)) := by
  intro i v hi
  rw [List.getElem?_map] at hi
  obtain ⟨k, hk, rfl⟩ := Option.map_eq_some_iff.1 hi
  obtain ⟨-, rfl⟩ := List.getElem?_eq_some_iff.1 hk
  rw [List.getElem_range]

/-! ### Patched files -/

namespace File

/-- `f` is `f₀` with the bytes of `B` at the positions `W`, and nothing else changed: the file
reaches as far as it must, and a hole reads as zeros. -/
structure Patched (f₀ : File) (B : ℕ → UInt8) (W : Set ℕ) (f : File) : Prop where
  len : ∀ b, b < f.len ↔ b < f₀.len ∨ ∃ c ∈ W, b ≤ c
  inside : ∀ b ∈ W, f.read b = B b
  outside : ∀ b ∉ W, f.read b = f₀.read b

variable {f₀ f f' : File} {B : ℕ → UInt8} {W : Set ℕ} {offset : ℕ} {bytes : List UInt8}

theorem read_put (b : ℕ) : (f.put offset bytes).read b =
    if offset ≤ b ∧ b < offset + bytes.length then bytes.getD (b - offset) 0 else f.read b := by
  by_cases hne : bytes = []
  · have hnot : ¬(offset ≤ b ∧ b < offset + bytes.length) := by
      rw [hne, List.length_nil]; omega
    rw [if_neg hnot, put, if_pos hne]
  · rw [read, put_len offset hne]
    by_cases hmem : offset ≤ b ∧ b < offset + bytes.length
    · rw [if_pos (lt_max_of_lt_right hmem.2), if_pos hmem, put_data_of_mem hmem.1 hmem.2]
    · rw [if_neg hmem, read]
      by_cases hlt : b < f.len
      · rw [if_pos (lt_max_of_lt_left hlt), if_pos hlt, put_data_of_not_mem hmem hlt]
      · -- past the old end, a byte that is not written is in the hole before the write
        have hzero : (f.put offset bytes).data b = 0 := by
          rw [put, if_neg hne]
          exact (if_neg hmem).trans (if_neg hlt)
        rw [hzero, if_neg hlt, ite_self]

theorem Patched.refl (f₀ : File) (B : ℕ → UInt8) : f₀.Patched B ∅ f₀ where
  len := by simp
  inside := by simp
  outside := by simp

theorem Patched.put (h : f₀.Patched B W f) (hB : Placed B offset bytes) :
    f₀.Patched B (W ∪ span (offset, bytes.length)) (f.put offset bytes) where
  len := by
    intro b
    by_cases hne : bytes = []
    · have hempty : span (offset, bytes.length) = ∅ := by rw [hne, List.length_nil, span_zero]
      rw [hempty, Set.union_empty, File.put, if_pos hne, h.len b]
    · have hpos := List.length_pos_iff.2 hne
      rw [put_len offset hne, lt_max_iff, h.len b]
      constructor
      · rintro ((hb | ⟨c, hc, hbc⟩) | hb)
        · exact Or.inl hb
        · exact Or.inr ⟨c, Or.inl hc, hbc⟩
        · exact Or.inr ⟨offset + bytes.length - 1, Or.inr (by rw [mem_span]; omega), by omega⟩
      · rintro (hb | ⟨c, hc | hc, hbc⟩)
        · exact Or.inl (Or.inl hb)
        · exact Or.inl (Or.inr ⟨c, hc, hbc⟩)
        · rw [mem_span] at hc
          exact Or.inr (by omega)
  inside := by
    intro b hb
    rw [read_put]
    split_ifs with hmem
    · have hlt : b - offset < bytes.length := by omega
      have hget := hB (b - offset) bytes[b - offset] (List.getElem?_eq_getElem hlt)
      rw [List.getD_eq_getElem?_getD, List.getElem?_eq_getElem hlt, Option.getD_some, hget]
      congr 1; omega
    · exact h.inside b (hb.resolve_right hmem)
  outside := by
    intro b hb
    rw [Set.mem_union, not_or] at hb
    rw [read_put, if_neg (mem_span.not.1 hb.2)]
    exact h.outside b hb.1

/-- The patch determines the file. -/
theorem Patched.unique (h : f₀.Patched B W f) (h' : f₀.Patched B W f') :
    f.len = f'.len ∧ ∀ b, f.read b = f'.read b := by
  constructor
  · refine Nat.le_antisymm ?_ ?_
    · exact le_of_forall_lt fun b hb => (h'.len b).2 ((h.len b).1 hb)
    · exact le_of_forall_lt fun b hb => (h.len b).2 ((h'.len b).1 hb)
  · intro b
    by_cases hb : b ∈ W
    · rw [h.inside b hb, h'.inside b hb]
    · rw [h.outside b hb, h'.outside b hb]

end File

/-! ### The plain writer -/

/-- The part file and the set of a writer that writes each chunk as it arrives. -/
structure Plain where
  file : File
  done : RangeSet

/-- Put one chunk into the file. -/
def Plain.write (p : Plain) (c : ℕ × List UInt8) : Plain :=
  ⟨p.file.put c.1 c.2, p.done.insert c.1 c.2.length⟩

/-- The chunks sent before the writer is told to finish. -/
def chunks : List Queued → List (ℕ × List UInt8)
  | [] => []
  | q :: rest =>
    match q.msg with
    | .data offset bytes => (offset, bytes) :: chunks rest
    | .control .sync => chunks rest
    | .control .finish => []

/-- For each message that asks for a checkpoint, the chunks sent before it. -/
def asked (before : List (ℕ × List UInt8)) : List Queued → List (List (ℕ × List UInt8))
  | [] => []
  | q :: rest =>
    match q.msg with
    | .data offset bytes => asked (before ++ [(offset, bytes)]) rest
    | .control .sync => before :: asked before rest
    | .control .finish => [before]

/-- The call was made without an error. -/
def IoEvent.ok : IoEvent → Bool
  | .write _ _ ok => ok
  | .sync _ ok => ok
  | .checkpoint _ _ _ ok => ok
  | .reply _ => true

/-- The answers to the messages that ask for a checkpoint. -/
def replies (log : List IoEvent) : List (Option RangeSet) :=
  log.filterMap fun
    | .reply r => some r
    | _ => none

/-- The answer carries what was done at first and all that has been sent since, no more. -/
def Answers (initial : RangeSet) (sent : List (ℕ × List UInt8)) (reply : Option RangeSet) : Prop :=
  ∃ R, reply = some R ∧ R.covered = initial.covered ∪ cover (rangesOf sent)

/-! ### The writer's invariant -/

/-- No call of the history failed. -/
def NoFailure (log : List IoEvent) : Prop := ∀ e ∈ log, e.ok = true

theorem NoFailure.of_append {log log' : List IoEvent} (h : NoFailure (log ++ log')) :
    NoFailure log := fun e he => h e (List.mem_append_left _ he)

section Caught

variable (disk : Disk) (initial : RangeSet) (B : ℕ → UInt8)

/-- The writer has caught up with the plain writer on the positions `W`, and has answered the
messages before which the lists of chunks `asks` were sent. -/
structure WriterState.Caught (W : Set ℕ) (asks : List (List (ℕ × List UInt8))) (w : WriterState) :
    Prop where
  covered : w.done.covered = initial.covered ∪ W
  ordered : w.done.Ordered
  canonical : initial.Canonical → w.done.Canonical
  file : disk.volatile.Patched B W (disk.replay w.log).volatile
  bound : ∀ b ∈ W, b < maxFileLen
  answers : List.Forall₂ (Answers initial) asks (replies w.log)

/-- As long as no call has failed, the writer has caught up on `W`; the chunks `p` are pending. -/
def WriterState.At (W : Set ℕ) (asks : List (List (ℕ × List UInt8))) (p : List (ℕ × List UInt8))
    (w : WriterState) : Prop :=
  w.pending = p ∧ (NoFailure w.log → w.Caught disk initial B W asks)

/-- A call has failed. -/
abbrev Broken : WriterError → WriterState → Prop := fun _ w => ¬NoFailure w.log

end Caught

namespace Writer

open Program

variable {env : Env} {disk : Disk} {initial : RangeSet} {B : ℕ → UInt8} {W : Set ℕ}
  {asks : List (List (ℕ × List UInt8))} {p F : List (ℕ × List UInt8)} {w : WriterState}

theorem at_congr {w' : WriterState} (h : w.At disk initial B W asks p) (hdone : w'.done = w.done)
    (hlog : w'.log = w.log) (hpending : w'.pending = w.pending) :
    w'.At disk initial B W asks p := by
  refine ⟨hpending.trans h.1, fun hok => ?_⟩
  have hc := h.2 (hlog ▸ hok)
  exact ⟨hdone ▸ hc.covered, hdone ▸ hc.ordered, fun hi => hdone ▸ hc.canonical hi,
    hlog ▸ hc.file, hc.bound, hlog ▸ hc.answers⟩

theorem at_emit (h : w.At disk initial B W asks p) {e : IoEvent}
    (hfile : ∀ d : Disk, (d.apply e).volatile = d.volatile) (hreply : replies [e] = []) :
    ({ w with log := w.log ++ [e] } : WriterState).At disk initial B W asks p := by
  refine ⟨h.1, fun hok => ?_⟩
  have hc := h.2 hok.of_append
  refine ⟨hc.covered, hc.ordered, hc.canonical, ?_, hc.bound, ?_⟩
  · rw [Disk.replay_snoc, hfile]
    exact hc.file
  · have hreplies : replies (w.log ++ [e]) = replies w.log := by
      rw [replies, List.filterMap_append]
      exact (congrArg (replies w.log ++ ·) hreply).trans (List.append_nil _)
    rw [hreplies]
    exact hc.answers

theorem not_noFailure_snoc {log : List IoEvent} {e : IoEvent} (he : e.ok = false) :
    ¬NoFailure (log ++ [e]) := fun h =>
  Bool.noConfusion (he.symm.trans (h e (List.mem_append_right _ List.mem_cons_self)))

theorem failWith_broken {P : WriterState → Prop} {Q : Unit → WriterState → Prop} {e : IoEvent}
    {error : WriterError} (he : e.ok = false) : Triple P (failWith e error) Q Broken :=
  failWith_spec fun _ _ => not_noFailure_snoc he

theorem tick_at {E : WriterError → WriterState → Prop} :
    Triple (WriterState.At disk initial B W asks p) tick
      (fun _ => WriterState.At disk initial B W asks p) E :=
  Triple.modifyGet fun _ h => at_congr h rfl rfl rfl

theorem now_at {E : WriterError → WriterState → Prop} :
    Triple (WriterState.At disk initial B W asks p) (now env)
      (fun _ => WriterState.At disk initial B W asks p) E := by
  unfold now
  exact tick_at.bind fun a => Triple.pure fun _ h => h

/-- One write catches up on its buffer. -/
theorem writeOut_at {buf : List UInt8} {bufStart : ℕ} (hB : Placed B bufStart buf) :
    Triple (WriterState.At disk initial B W asks p) (writeOut env buf bufStart)
      (fun _ => WriterState.At disk initial B (W ∪ span (bufStart, buf.length)) asks p)
      Broken := by
  unfold writeOut writeAt
  refine Triple.bind (Q := fun _ w => ∃ w₀ : WriterState, w₀.At disk initial B W asks p ∧
    w = { w₀ with log := w₀.log ++ [.write bufStart buf true] } ∧
    bufStart + buf.length ≤ maxFileLen) ?_ fun _ => Triple.modify ?_
  · refine tick_at.bind fun a => Triple.ite (fun hok => ?_) fun _ => failWith_broken rfl
    exact Triple.modify fun w h => ⟨w, h, rfl, hok.2⟩
  · rintro _ ⟨w, h, rfl, hmax⟩
    refine ⟨h.1, fun hok => ?_⟩
    have hc := h.2 hok.of_append
    have hle : bufStart + buf.length ≤ u64Max := by unfold u64Max; unfold maxFileLen at hmax; omega
    refine ⟨?_, RangeSet.ordered_insert hc.ordered hle,
      fun hi => RangeSet.canonical_insert (hc.canonical hi) hle, ?_, ?_, ?_⟩
    · rw [RangeSet.covered_insert hc.ordered hle, hc.covered, Set.union_assoc]
      rfl
    · rw [Disk.replay_snoc]
      exact hc.file.put hB
    · rintro b (hb | hb)
      · exact hc.bound b hb
      · rw [mem_span] at hb
        omega
    · have hreplies : replies (w.log ++ [.write bufStart buf true]) = replies w.log := by
        simp [replies]
      rw [hreplies]
      exact hc.answers

/-- Merging changes how the chunks are written, not what is written. -/
theorem flushLoop_at {l : List (ℕ × List UInt8)} {buf : List UInt8} {bufStart : ℕ}
    (hl : ∀ c ∈ l, Placed B c.1 c.2) (hbuf : Placed B bufStart buf) :
    Triple (WriterState.At disk initial B W asks p) (flushLoop env l buf bufStart)
      (fun _ => WriterState.At disk initial B
        (W ∪ (span (bufStart, buf.length) ∪ cover (rangesOf l))) asks p) Broken := by
  induction l generalizing W buf bufStart with
  | nil =>
    refine Triple.ite (fun hempty => Triple.pure fun w h => ?_) fun _ => ?_
    · rw [hempty, List.length_nil, span_zero, rangesOf_nil, cover_nil, Set.union_empty,
        Set.union_empty]
      exact h
    · rw [rangesOf_nil, cover_nil, Set.union_empty]
      exact writeOut_at hbuf
  | cons c l ih =>
    obtain ⟨offset, bytes⟩ := c
    obtain ⟨hc, hl⟩ := List.forall_mem_cons.1 hl
    rw [rangesOf_cons, cover_cons]
    refine Triple.ite (fun hempty => ?_) fun _ => Triple.ite (fun hm => ?_) fun _ => ?_
    · rw [hempty, List.length_nil, span_zero, Set.empty_union]
      exact ih hl hc
    · -- the chunk continues the buffer
      have hspan : span (bufStart, (buf ++ bytes).length) =
          span (bufStart, buf.length) ∪ span (offset, bytes.length) := by
        ext b
        simp only [mem_span, Set.mem_union, List.length_append]
        omega
      refine (ih hl (hbuf.append (hm.1 ▸ hc))).conseq (fun _ h => h) (fun _ w h => ?_)
        fun _ _ h => h
      rwa [hspan, Set.union_assoc] at h
    · rw [← Set.union_assoc]
      exact (writeOut_at hbuf).bind fun _ => ih hl hc

/-- A flush catches up on what is pending, in whatever order it is sorted. -/
theorem flushPending_at (hp : ∀ c ∈ p, Placed B c.1 c.2) :
    Triple (WriterState.At disk initial B (cover (rangesOf F)) asks p) (flushPending env)
      (fun _ => WriterState.At disk initial B (cover (rangesOf (F ++ p))) asks []) Broken := by
  unfold flushPending
  refine Triple.get_bind fun w₀ => ?_
  by_cases hpend : w₀.pending = p
  · refine Triple.pre (Triple.ite (fun hempty => Triple.pure fun w h => ?_) fun _ => ?_)
      fun _ h => h.1
    · rw [show p = [] from hpend.symm.trans hempty] at h ⊢
      rwa [List.append_nil]
    · refine Triple.bind (Q := fun _ => WriterState.At disk initial B (cover (rangesOf F)) asks [])
        (Triple.modify fun w h => ⟨rfl, fun hok => ?_⟩) fun _ => ?_
      · have hc := h.2 hok
        exact ⟨hc.covered, hc.ordered, hc.canonical, hc.file, hc.bound, hc.answers⟩
      · have hperm := env.sort_perm w₀.pending
        have hsorted : ∀ c ∈ env.sortUnstable w₀.pending, Placed B c.1 c.2 := fun c hc =>
          hp c (hpend ▸ hperm.mem_iff.1 hc)
        have hcover : cover (rangesOf (env.sortUnstable w₀.pending)) = cover (rangesOf p) :=
          hpend ▸ cover_perm (hperm.map _)
        refine (flushLoop_at hsorted fun i v hi => by simp at hi).bind fun _ => Triple.modify ?_
        intro w h
        rw [List.length_nil, span_zero, Set.empty_union, hcover, ← cover_append,
          ← rangesOf_append] at h
        exact at_congr h rfl rfl rfl
  · rintro w ⟨h, rfl⟩
    exact absurd h.1 hpend

theorem durableCheckpoint_at (cause : Cause) :
    Triple (WriterState.At disk initial B W asks p) (durableCheckpoint env cause)
      (fun _ => WriterState.At disk initial B W asks p)
      (fun _ w => w.pending = p ∧ ¬NoFailure w.log) := by
  have hfail : ∀ {e : IoEvent} {error : WriterError}, e.ok = false →
      Triple (WriterState.At disk initial B W asks p) (failWith e error)
        (fun _ => WriterState.At disk initial B W asks p)
        (fun _ w => w.pending = p ∧ ¬NoFailure w.log) := fun he =>
    failWith_spec fun w h => ⟨h.1, not_noFailure_snoc he⟩
  unfold durableCheckpoint syncData sinkCheckpoint
  refine Triple.bind (Q := fun _ => WriterState.At disk initial B W asks p) ?_ fun _ =>
    Triple.get_bind fun w₀ => Triple.pre ?_ fun _ h => h.1
  · refine tick_at.bind fun a => Triple.ite (fun _ => ?_) fun _ => hfail rfl
    exact Triple.modify fun w h => at_emit h (fun _ => rfl) rfl
  · refine tick_at.bind fun a => Triple.ite (fun _ => ?_) fun _ => hfail rfl
    exact Triple.modify fun w h => at_emit h (fun _ => rfl) rfl

theorem attempt_at (c : Control) {E : WriterError → WriterState → Prop} :
    Triple (WriterState.At disk initial B W asks p)
      (attempt (durableCheckpoint env (.requested c)))
      (fun r w => w.At disk initial B W asks p ∧ (NoFailure w.log → r = true)) E := by
  unfold attempt
  refine Triple.tryCatch ((durableCheckpoint_at _).bind fun _ => Triple.pure fun w h =>
    ⟨h, fun _ => rfl⟩) fun _ => Triple.pure fun w h => ?_
  exact ⟨⟨h.1, fun hok => absurd hok h.2⟩, fun hok => absurd hok h.2⟩

theorem at_reply {r : Bool} (h : w.At disk initial B (cover (rangesOf F)) asks p)
    (hr : NoFailure w.log → r = true) :
    ({ w with log := w.log ++ [.reply (if r then some w.done else none)] } : WriterState).At
      disk initial B (cover (rangesOf F)) (asks ++ [F]) p := by
  refine ⟨h.1, fun hok => ?_⟩
  have hc := h.2 hok.of_append
  have hreplies : replies (w.log ++ [.reply (if r then some w.done else none)]) =
      replies w.log ++ [some w.done] := by
    rw [hr hok.of_append]
    simp [replies]
  refine ⟨hc.covered, hc.ordered, hc.canonical, ?_, hc.bound, ?_⟩
  · rw [Disk.replay_snoc]
    exact hc.file
  · rw [hreplies]
    exact List.rel_append hc.answers
      (List.Forall₂.cons ⟨w.done, rfl, hc.covered⟩ List.Forall₂.nil)

theorem handleControl_at (c : Control) {E : WriterError → WriterState → Prop} :
    Triple (WriterState.At disk initial B (cover (rangesOf F)) asks p) (handleControl env c)
      (fun r w => r = decide (c = .finish) ∧
        w.At disk initial B (cover (rangesOf F)) (asks ++ [F]) p) E := by
  cases c with
  | sync =>
    refine (attempt_at .sync).bind fun r => ?_
    refine Triple.bind (Q := fun _ w => w.At disk initial B (cover (rangesOf F)) asks p ∧
      (NoFailure w.log → r = true)) ?_ fun t => ?_
    · unfold now
      refine Triple.bind (Triple.modifyGet fun w h => ?_) fun _ => Triple.pure fun _ h => h
      exact ⟨at_congr h.1 rfl rfl rfl, h.2⟩
    · refine Triple.bind (Q := fun _ w => w.At disk initial B (cover (rangesOf F)) asks p ∧
        (NoFailure w.log → r = true)) (Triple.modify fun w h => ?_) fun _ =>
          Triple.get_bind fun w₀ => ?_
      · exact ⟨at_congr h.1 rfl rfl rfl, h.2⟩
      · refine Triple.bind (Q := fun _ => WriterState.At disk initial B (cover (rangesOf F))
          (asks ++ [F]) p) (Triple.modify ?_) fun _ => Triple.pure fun _ h => ⟨rfl, h⟩
        rintro w ⟨h, rfl⟩
        exact at_reply h.1 h.2
  | finish =>
    refine (attempt_at .finish).bind fun r => Triple.get_bind fun w₀ => ?_
    refine Triple.bind (Q := fun _ => WriterState.At disk initial B (cover (rangesOf F))
      (asks ++ [F]) p) (Triple.modify ?_) fun _ => Triple.pure fun _ h => ⟨rfl, h⟩
    rintro w ⟨h, rfl⟩
    exact at_reply h.1 h.2

theorem push_at (offset : ℕ) (bytes : List UInt8) :
    Triple (WriterState.At disk initial B W asks p) (push offset bytes)
      (fun _ => WriterState.At disk initial B W asks (p ++ [(offset, bytes)])) Broken := by
  refine Triple.modify fun w h => ⟨?_, fun hok => ?_⟩
  · rw [← h.1]
  · have hc := h.2 hok
    exact ⟨hc.covered, hc.ordered, hc.canonical, hc.file, hc.bound, hc.answers⟩

/-- Of the queue `l`, after the chunks `S`, the writer has taken all but `rest`: what it took and
what is left make up what was to come.  After the last message nothing more counts. -/
structure Took (S : List (ℕ × List UInt8)) (asks : List (List (ℕ × List UInt8))) (l : List Queued)
    (S' : List (ℕ × List UInt8)) (asks' : List (List (ℕ × List UInt8))) (exit : Bool)
    (rest : List Queued) : Prop where
  chunks : S ++ chunks l = S' ++ if exit then [] else chunks rest
  asked : asks ++ asked S l = asks' ++ if exit then [] else asked S' rest
  shorter : rest.length ≤ l.length

theorem drain_at (l : List Queued) (hB : ∀ c ∈ F ++ p ++ chunks l, Placed B c.1 c.2) :
    Triple (WriterState.At disk initial B (cover (rangesOf F)) asks p) (drain env l)
      (fun r w => ∃ x : List (ℕ × List UInt8) × List (ℕ × List UInt8) ×
          List (List (ℕ × List UInt8)),
        Took (F ++ p) asks l (x.1 ++ x.2.1) x.2.2 r.1 r.2 ∧ (r.1 = true → x.2.1 = []) ∧
        w.At disk initial B (cover (rangesOf x.1)) x.2.2 x.2.1) Broken := by
  induction l generalizing p with
  | nil => exact Triple.pure fun w h => ⟨(F, p, asks), ⟨rfl, rfl, le_rfl⟩, by simp, h⟩
  | cons q rest ih =>
    unfold drain
    refine Triple.get_bind fun w₀ => Triple.pre (Triple.ite (fun _ => ?_) fun _ =>
      Triple.pure fun w h => ⟨(F, p, asks), ⟨rfl, rfl, le_rfl⟩, by simp, h⟩) fun _ h => h.1
    cases hmsg : q.msg with
    | data offset bytes =>
      have hchunks : chunks (q :: rest) = (offset, bytes) :: chunks rest := by
        rw [chunks, hmsg]
      have hasked : ∀ S, asked S (q :: rest) = asked (S ++ [(offset, bytes)]) rest := by
        intro S
        rw [asked, hmsg]
      refine (push_at offset bytes).bind fun _ => (ih (p := p ++ [(offset, bytes)]) ?_).conseq
        (fun _ h => h) ?_ fun _ _ h => h
      · intro c hc
        refine hB c ?_
        rw [hchunks]
        simpa using hc
      · rintro r w ⟨x, htook, hexit, h⟩
        refine ⟨x, ⟨?_, ?_, htook.shorter.trans (Nat.le_succ _)⟩, hexit, h⟩
        · rw [hchunks, ← htook.chunks]
          simp
        · rw [hasked, ← htook.asked]
          simp
    | control c =>
      refine (flushPending_at fun c hc => hB c (by simp [hc])).bind fun _ =>
        (handleControl_at c).bind fun exit => Triple.pure fun w h => ?_
      refine ⟨(F ++ p, [], asks ++ [F ++ p]), ⟨?_, ?_, Nat.le_succ _⟩, fun _ => rfl, h.2⟩
      · rw [h.1, chunks, hmsg]
        cases c <;> simp
      · rw [h.1, asked, hmsg]
        cases c <;> simp

/-- What the task leaves when no call has failed. -/
def Complete (disk : Disk) (initial : RangeSet) (B : ℕ → UInt8) (S : List (ℕ × List UInt8))
    (asks : List (List (ℕ × List UInt8))) (r : RangeSet) (w : WriterState) : Prop :=
  NoFailure w.log → r = w.done ∧ w.Caught disk initial B (cover (rangesOf S)) asks

theorem close_at :
    Triple (WriterState.At disk initial B (cover (rangesOf F)) asks []) (close env)
      (Complete disk initial B F asks) Broken := by
  unfold close
  refine (flushPending_at (p := []) (by simp)).bind fun _ => Triple.bind
    ((durableCheckpoint_at .closed).conseq (fun _ h => h) (fun _ _ h => h) fun _ _ h => h.2)
    fun _ => Triple.get_bind fun w₀ => Triple.pure ?_
  rintro w ⟨h, rfl⟩ hok
  have hc := h.2 hok
  rw [List.append_nil] at hc
  exact ⟨rfl, hc⟩

theorem checkpointIfDue_at :
    Triple (WriterState.At disk initial B W asks p) (checkpointIfDue env)
      (fun _ => WriterState.At disk initial B W asks p) Broken := by
  unfold checkpointIfDue
  refine now_at.bind fun t => Triple.get_bind fun w₀ => Triple.pre ?_ fun _ h => h.1
  refine Triple.ite (fun _ => ?_) fun _ => Triple.pure fun _ h => h
  refine Triple.bind ((durableCheckpoint_at .due).conseq (fun _ h => h) (fun _ _ h => h)
    fun _ _ h => h.2) fun _ => ?_
  exact now_at.bind fun _ => Triple.modify fun _ h => at_congr h rfl rfl rfl

theorem serve_at (rounds : ℕ) (l : List Queued) (hrounds : l.length ≤ rounds)
    (hB : ∀ c ∈ F ++ chunks l, Placed B c.1 c.2) :
    Triple (WriterState.At disk initial B (cover (rangesOf F)) asks []) (serve env rounds l)
      (Complete disk initial B (F ++ chunks l) (asks ++ asked F l)) Broken := by
  induction rounds generalizing l F asks with
  | zero =>
    obtain rfl := List.eq_nil_of_length_eq_zero (Nat.le_zero.1 hrounds)
    rw [chunks, asked, List.append_nil, List.append_nil]
    exact close_at
  | succ rounds ih =>
    cases l with
    | nil =>
      rw [chunks, asked, List.append_nil, List.append_nil]
      exact close_at
    | cons q rest =>
      have hrest : rest.length ≤ rounds := Nat.le_of_succ_le_succ hrounds
      have hdone : ∀ {S asks'}, Triple (WriterState.At disk initial B (cover (rangesOf S)) asks' [])
          (do return (← get).done : Program WriterState WriterError RangeSet)
          (Complete disk initial B S asks') Broken := by
        intro S asks'
        refine Triple.get_bind fun w₀ => Triple.pure ?_
        rintro w ⟨h, rfl⟩ hok
        exact ⟨rfl, h.2 hok⟩
      unfold serve
      cases hmsg : q.msg with
      | data offset bytes =>
        have hchunks : chunks (q :: rest) = (offset, bytes) :: chunks rest := by
          rw [chunks, hmsg]
        have hasked : asked F (q :: rest) = asked (F ++ [(offset, bytes)]) rest := by
          rw [asked, hmsg]
        have hall : F ++ chunks (q :: rest) = F ++ [(offset, bytes)] ++ chunks rest := by
          rw [hchunks, List.append_assoc]
          rfl
        rw [hall] at hB
        refine (push_at offset bytes).bind fun _ => (drain_at rest (by simpa using hB)).bind
          fun r => Triple.of_exists fun x => ?_
        refine Triple.of_and fun htook => Triple.of_and fun hexit => ?_
        rw [hall, hasked]
        have hall' := htook.chunks
        have hasked' := htook.asked
        rw [List.nil_append] at hall' hasked'
        rw [hall', hasked']
        refine Triple.ite (fun hr => ?_) fun hr => ?_
        · rw [hr, hexit hr]
          simpa using hdone
        · have hB' : ∀ c ∈ x.1 ++ x.2.1 ++ chunks r.2, Placed B c.1 c.2 := by
            rw [if_neg hr] at hall'
            rw [← hall']
            exact hB
          rw [if_neg hr, if_neg hr]
          refine (flushPending_at fun c hc => hB' c (by simp [hc])).bind fun _ =>
            checkpointIfDue_at.bind fun _ => ih r.2 (htook.shorter.trans hrest) hB'
      | control c =>
        refine (flushPending_at (p := []) (by simp)).bind fun _ =>
          (handleControl_at c).bind fun exit => Triple.of_and fun hr => ?_
        rw [List.append_nil]
        have hchunks : chunks (q :: rest) = if c = .finish then [] else chunks rest := by
          rw [chunks, hmsg]
          cases c <;> rfl
        have hasked : asks ++ asked F (q :: rest) =
            asks ++ [F] ++ if c = .finish then [] else asked F rest := by
          rw [asked, hmsg]
          cases c <;> simp
        rw [hchunks] at hB ⊢
        rw [hasked, hr]
        refine Triple.ite (fun hc => ?_) fun hc => ?_
        · rw [if_pos (of_decide_eq_true hc), if_pos (of_decide_eq_true hc), List.append_nil,
            List.append_nil]
          exact hdone
        · have hne : ¬c = .finish := fun heq => hc (decide_eq_true heq)
          rw [if_neg hne] at hB ⊢
          rw [if_neg hne]
          exact ih rest hrest hB

theorem at_start (env : Env) (disk : Disk) (B : ℕ → UInt8) (hi : initial.Ordered) :
    (start env initial).At disk initial B (cover (rangesOf [])) [] [] := by
  refine ⟨rfl, fun _ => ⟨?_, hi, fun h => h, ?_, ?_, List.Forall₂.nil⟩⟩
  · rw [rangesOf_nil, cover_nil, Set.union_empty]
    rfl
  · rw [rangesOf_nil, cover_nil]
    exact File.Patched.refl _ _
  · simp

/-- When no call fails, the task returns with everything sent before `Finish`. -/
theorem run_complete (env : Env) (disk : Disk) (hi : initial.Ordered) {inbox : List Queued}
    (hB : ∀ c ∈ chunks inbox, Placed B c.1 c.2)
    (hok : NoFailure (run env initial inbox).2.log) :
    (run env initial inbox).1 = .ok (run env initial inbox).2.done ∧
      (run env initial inbox).2.Caught disk initial B (cover (rangesOf (chunks inbox)))
        (asked [] inbox) := by
  have hrun : Ends (Complete disk initial B (chunks inbox) (asked [] inbox)) Broken
      (run env initial inbox) :=
    serve_at inbox.length inbox le_rfl hB _ (at_start env disk B hi)
  rcases hr : run env initial inbox with ⟨e | r, w⟩ <;> rw [hr] at hrun hok
  · exact absurd hok hrun
  · obtain ⟨rfl, hcaught⟩ := hrun hok
    exact ⟨rfl, hcaught⟩

end Writer

/-! ### Refinement -/

section Plain

variable {B : ℕ → UInt8} {initial : RangeSet} {f₀ : File} {W : Set ℕ}

/-- The plain writer after some chunks: its file is patched, its set has grown by them. -/
theorem Plain.writes_spec {p : Plain} {l : List (ℕ × List UInt8)} (hf : f₀.Patched B W p.file)
    (hdone : p.done.Ordered) (hl : ∀ c ∈ l, Placed B c.1 c.2)
    (hbound : ∀ b ∈ cover (rangesOf l), b < maxFileLen) :
    f₀.Patched B (W ∪ cover (rangesOf l)) (l.foldl Plain.write p).file ∧
      (l.foldl Plain.write p).done.covered = p.done.covered ∪ cover (rangesOf l) ∧
      (p.done.Canonical → (l.foldl Plain.write p).done.Canonical) := by
  induction l generalizing p W with
  | nil => simpa using hf
  | cons c l ih =>
    obtain ⟨hc, hl⟩ := List.forall_mem_cons.1 hl
    rw [rangesOf_cons, cover_cons] at hbound ⊢
    -- an empty chunk may lie anywhere, the others end within the largest file
    have hins : (p.write c).done.Ordered ∧
        (p.write c).done.covered = p.done.covered ∪ span (c.1, c.2.length) ∧
        (p.done.Canonical → (p.write c).done.Canonical) := by
      by_cases hempty : c.2.length = 0
      · have hsame : (p.write c).done = p.done := by simp [Plain.write, RangeSet.insert, hempty]
        rw [hsame, hempty, span_zero, Set.union_empty]
        exact ⟨hdone, rfl, fun h => h⟩
      · have hlast := hbound (c.1 + c.2.length - 1) (Or.inl (by rw [mem_span]; omega))
        have hle : c.1 + c.2.length ≤ u64Max := by unfold u64Max; unfold maxFileLen at hlast; omega
        exact ⟨RangeSet.ordered_insert hdone hle, RangeSet.covered_insert hdone hle,
          fun h => RangeSet.canonical_insert h hle⟩
    obtain ⟨hfile, hcov, hcan⟩ := ih (p := p.write c) (hf.put hc) hins.1 hl
      fun b hb => hbound b (Or.inr hb)
    rw [List.foldl_cons]
    refine ⟨?_, ?_, fun h => hcan (hins.2.2 h)⟩
    · rwa [Set.union_assoc] at hfile
    · rw [hcov, hins.2.1, Set.union_assoc]

end Plain

/-- **Coalescing refines plain writing.**  The payloads are slices of one resource, at any offsets
and in any order; requests for a checkpoint stand anywhere among them; the queue is drained in
whatever groups the arrivals allow.  If no call fails, the writer returns; what it returns is the
initial set united with the ranges sent before `Finish`; the file holds `B` there and is unchanged
elsewhere; every answer carries exactly what was sent before the request; and the set and the file
are those of the writer that writes each chunk separately as it arrives. -/
theorem coalescing_refines_plain (env : Env) (disk : Disk) (B : ℕ → UInt8) {initial : RangeSet}
    (hi : initial.Ordered) {inbox : List Queued} (hB : ∀ c ∈ chunks inbox, Placed B c.1 c.2)
    (hok : NoFailure (Writer.run env initial inbox).2.log) :
    ∃ r, (Writer.run env initial inbox).1 = .ok r ∧
      r.covered = initial.covered ∪ cover (rangesOf (chunks inbox)) ∧
      disk.volatile.Patched B (cover (rangesOf (chunks inbox)))
        (disk.replay (Writer.run env initial inbox).2.log).volatile ∧
      List.Forall₂ (Answers initial) (asked [] inbox)
        (replies (Writer.run env initial inbox).2.log) ∧
      let plain := (chunks inbox).foldl Plain.write ⟨disk.volatile, initial⟩
      r.covered = plain.done.covered ∧ (initial.Canonical → r = plain.done) ∧
        (disk.replay (Writer.run env initial inbox).2.log).volatile.len = plain.file.len ∧
        ∀ b, (disk.replay (Writer.run env initial inbox).2.log).volatile.read b =
          plain.file.read b := by
  obtain ⟨hrun, hcaught⟩ := Writer.run_complete env disk hi hB hok
  obtain ⟨hfile, hcov, hcan⟩ := Plain.writes_spec (p := ⟨disk.volatile, initial⟩)
    (File.Patched.refl disk.volatile B) hi hB hcaught.bound
  rw [Set.empty_union] at hfile
  have hset := hcaught.covered.trans hcov.symm
  exact ⟨_, hrun, hcaught.covered, hcaught.file, hcaught.answers, hset,
    fun h => (hcaught.canonical h).ext (hcan h) hset, hcaught.file.unique hfile⟩

/-- Two overlapping chunks out of order, a `Sync` found in the middle of a batch, an empty chunk
and one more. -/
theorem coalescing_refines_plain_overlap :
    ∃ r, (Writer.run .calm .new [⟨.data 1 [8, 9], false⟩, ⟨.data 0 [7, 8], false⟩,
        ⟨.control .sync, false⟩, ⟨.data 9 [], false⟩, ⟨.data 4 [11], false⟩,
        ⟨.control .finish, true⟩]).1 = .ok r ∧
      r.covered = RangeSet.new.covered ∪ cover [(1, 2), (0, 2), (9, 0), (4, 1)] := by
  let B : ℕ → UInt8 := fun b => UInt8.ofNat (b + 7)
  have h₁ : Placed B 1 [8, 9] := placed_slice B 1 2
  have h₂ : Placed B 0 [7, 8] := placed_slice B 0 2
  have h₃ : Placed B 9 [] := placed_slice B 9 0
  have h₄ : Placed B 4 [11] := placed_slice B 4 1
  have hB : ∀ c ∈ chunks [⟨.data 1 [8, 9], false⟩, ⟨.data 0 [7, 8], false⟩,
      ⟨.control .sync, false⟩, ⟨.data 9 [], false⟩, ⟨.data 4 [11], false⟩,
      ⟨.control .finish, true⟩], Placed B c.1 c.2 := by
    simp only [chunks, List.forall_mem_cons, List.not_mem_nil, false_imp_iff, implies_true,
      and_true]
    exact ⟨h₁, h₂, h₃, h₄⟩
  obtain ⟨r, hrun, hcov, -⟩ := coalescing_refines_plain .calm ⟨.empty, .empty⟩ B
    RangeSet.ordered_new hB (by unfold NoFailure; decide +kernel)
  exact ⟨r, hrun, hcov⟩

end SwiftLoad
