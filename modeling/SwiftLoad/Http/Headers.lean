import SwiftLoad.Text.Basic
import SwiftLoad.Util.SafeName
import SwiftLoad.Http.Errors

/-!
# `Content-Range`

`parse_content_range` of `http/headers.rs`, against the grammar of what it reads: the word `bytes`,
a first and a last offset and a total or a star, with blanks between them.

* `ContentRange.Written` : the grammar.
* `parseContentRange_eq_some` : the parser accepts the texts of the grammar whose numbers fit `u64`
  and are consistent, and reads them right.
* `contentRange_sound_iff` : for which headers the length of what was parsed is defined, and that
  what is printed parses back.
-/

namespace SwiftLoad

open Filename Text

/-- `str::parse::<u64>`. -/
def parseU64 (s : Name) : Option ℕ := parseDecimal u64Max s

/-- The total of a `Content-Range`, `*` when the server does not commit to one. -/
def parseTotal (s : Name) : Option (Option ℕ) :=
  match s with
  | ['*'] => some none
  | t => (parseU64 t).map some

/-- `parse_content_range`. -/
def parseContentRange (v : Name) : Option ContentRange := do
  let spec ← (trim v).dropPrefix? ['b', 'y', 't', 'e', 's']
  let spec := trimStart spec
  let (range, total) ← splitOnce '/' spec
  let (a, b) ← splitOnce '-' (trim range)
  let start ← parseU64 (trim a)
  let stop ← parseU64 (trim b)
  if hle : stop < start then none
  else do
    let total ← parseTotal (trim total)
    if hlt : ∀ t ∈ total, stop < t then some ⟨start, stop, total, not_lt.1 hle, hlt⟩ else none

/-- `parse_retry_after`: seconds, or a date, of which `untilDate` says how long it is until then.
The wait is capped. -/
def parseRetryAfter (untilDate : Name → Option Nanos) (v : Name) (cap : Nanos) : Option Nanos :=
  match parseU64 (trim v) with
  | some n => some (min (secs n) cap)
  | none => (untilDate (trim v)).map (min · cap)

/-- A worker and the probe wait no longer than this when a server asks them to. -/
def retryCap : Nanos := secs 120

/-- `is_transforming_encoding`: the body is not what the byte offsets count. -/
def isTransformingEncoding (v : Name) : Bool :=
  let v := (trim v).map Char.toLower
  !(v.isEmpty || decide (v = ['i', 'd', 'e', 'n', 't', 'i', 't', 'y']))

namespace ContentRange

/-- `len`: the sum `end + 1` may overflow. -/
def len (cr : ContentRange) : Option ℕ :=
  if cr.stop + 1 ≤ u64Max then some (cr.stop + 1 - cr.start) else none

/-- `bytes START-END/TOTAL`. -/
def print (cr : ContentRange) : Name :=
  ['b', 'y', 't', 'e', 's', ' '] ++ Nat.toDigits 10 cr.start ++ '-' :: Nat.toDigits 10 cr.stop ++
    '/' :: cr.total.elim ['*'] (Nat.toDigits 10)

/-- The number of the total, or a star. -/
def Total (s : Name) : Option ℕ → Prop
  | none => s = ['*']
  | some n => Numeral s n

/-- Blanks. -/
def Blank (w : Name) : Prop := ∀ c ∈ w, isWhitespace c = true

/-- The texts of a range: its numbers, the word, the dash and the slash, with blanks between. -/
def Written (v : Name) (start stop : ℕ) (total : Option ℕ) : Prop :=
  ∃ w₀ w₁ a w₂ w₃ b w₄ w₅ t w₆ : Name,
    v = w₀ ++ (['b', 'y', 't', 'e', 's'] ++ (w₁ ++ (a ++ (w₂ ++ '-' :: (w₃ ++ (b ++ (w₄ ++
      '/' :: (w₅ ++ (t ++ w₆))))))))) ∧
    (∀ w ∈ [w₀, w₁, w₂, w₃, w₄, w₅, w₆], Blank w) ∧
    Numeral a start ∧ Numeral b stop ∧ Total t total

variable {s t v w : Name} {n start stop : ℕ} {total : Option ℕ} {cr : ContentRange}

/-! ### The parts of the grammar -/

theorem isWhitespace_of_numeral (h : Numeral s n) {c : Char} (hc : c ∈ s) :
    isWhitespace c = false := by
  rcases h.mem hc with hdigit | rfl
  · -- the blanks are none of the ten digits
    simp only [Char.isDigit, Bool.and_eq_true, decide_eq_true_eq, ge_iff_le, UInt32.le_iff_toNat_le]
      at hdigit
    obtain ⟨h₁, h₂⟩ := hdigit
    change 48 ≤ c.toNat at h₁
    change c.toNat ≤ 57 at h₂
    simp only [isWhitespace, Bool.or_eq_false_iff, Bool.and_eq_false_iff, decide_eq_false_iff_not,
      List.mem_cons, List.not_mem_nil, or_false]
    omega
  · decide

theorem notMem_numeral (h : Numeral s n) {c : Char} (hc : c = '-' ∨ c = '/') : c ∉ s := by
  intro hmem
  rcases hc with rfl | rfl
  all_goals exact absurd (h.mem hmem) (by decide)

theorem notMem_blank (hw : Blank w) {c : Char} (hc : isWhitespace c = false) : c ∉ w :=
  fun hmem => by simp [hw c hmem] at hc

theorem tight_numeral (h : Numeral s n) : Tight isWhitespace s :=
  tight_of_forall fun _ hc => isWhitespace_of_numeral h hc

theorem Total.tight (h : Total t total) : Tight isWhitespace t := by
  cases total with
  | none => obtain rfl := h; exact ⟨by simp [isWhitespace], by simp [isWhitespace]⟩
  | some n => exact tight_numeral h

theorem Total.ne_nil (h : Total t total) : t ≠ [] := by
  cases total with
  | none => obtain rfl := h; decide
  | some n => exact Numeral.ne_nil h

theorem parseTotal_eq_some :
    parseTotal t = some total ↔ Total t total ∧ ∀ n ∈ total, n ≤ u64Max := by
  unfold parseTotal
  split
  · constructor
    · rintro h
      obtain rfl := Option.some.inj h
      exact ⟨rfl, by simp⟩
    · rintro ⟨h, -⟩
      cases total with
      | none => rfl
      | some n =>
        rcases Numeral.mem h (List.mem_cons_self) with hstar | hstar
        all_goals exact absurd hstar (by decide)
  · rename_i hstar
    rw [Option.map_eq_some_iff]
    constructor
    · rintro ⟨n, hn, rfl⟩
      obtain ⟨hnum, hle⟩ := parseDecimal_eq_some.1 hn
      exact ⟨hnum, by simpa using hle⟩
    · rintro ⟨h, hle⟩
      cases total with
      | none => exact absurd h hstar
      | some n => exact ⟨n, parseDecimal_eq_some.2 ⟨h, hle n rfl⟩, rfl⟩

/-! ### The parser and the grammar -/

theorem trim_blanks {w w' : Name} (hw : Blank w) (hw' : Blank w') (hs : Tight isWhitespace s) :
    trim (w ++ (s ++ w')) = s := by
  rw [← List.append_assoc]
  exact strip_eq hw hw' hs

theorem trim_parts (s : Name) : ∃ w w', s = w ++ (trim s ++ w') ∧ Blank w ∧ Blank w' := by
  obtain ⟨w, w', hs, hw, hw', -⟩ := strip_spec isWhitespace s
  exact ⟨w, w', by rwa [List.append_assoc] at hs, hw, hw'⟩

theorem Blank.append {w w' : Name} (hw : Blank w) (hw' : Blank w') : Blank (w ++ w') := by
  intro c hc
  rcases List.mem_append.1 hc with hc | hc
  · exact hw c hc
  · exact hw' c hc

theorem blank_nil : Blank [] := by simp [Blank]

/-- A consistent text of the grammar is parsed. -/
theorem parse_of_written (h : Written v cr.start cr.stop cr.total) (hstop : cr.stop ≤ u64Max)
    (htotal : ∀ n ∈ cr.total, n ≤ u64Max) : parseContentRange v = some cr := by
  obtain ⟨w₀, w₁, a, w₂, w₃, b, w₄, w₅, t, w₆, hv, hblank, ha, hb, ht⟩ := h
  simp only [List.forall_mem_cons, List.not_mem_nil, false_implies, implies_true, and_true]
    at hblank
  obtain ⟨hw₀, hw₁, hw₂, hw₃, hw₄, hw₅, hw₆⟩ := hblank
  have hta := tight_numeral ha
  have htb := tight_numeral hb
  have hcore : trim v = ['b', 'y', 't', 'e', 's'] ++ (w₁ ++ (a ++ (w₂ ++ '-' :: (w₃ ++ (b ++ (w₄ ++
      '/' :: (w₅ ++ t))))))) := by
    have htight := tight_append (p := isWhitespace) (s := ['b', 'y', 't', 'e', 's'])
      ⟨by simp [isWhitespace], by simp [isWhitespace]⟩ (by decide)
      (w₁ ++ (a ++ (w₂ ++ '-' :: (w₃ ++ (b ++ (w₄ ++ '/' :: w₅)))))) ht.tight ht.ne_nil
    have htrim := trim_blanks hw₀ hw₆ htight
    simpa [hv] using htrim
  have hspec : trimStart (w₁ ++ (a ++ (w₂ ++ '-' :: (w₃ ++ (b ++ (w₄ ++ '/' :: (w₅ ++ t))))))) =
      (a ++ (w₂ ++ '-' :: (w₃ ++ (b ++ w₄)))) ++ '/' :: (w₅ ++ t) := by
    have hhead : ∀ c ∈ (a ++ (w₂ ++ '-' :: (w₃ ++ (b ++ (w₄ ++ '/' :: (w₅ ++ t)))))).head?,
        isWhitespace c = false := by
      rw [List.head?_append_of_ne_nil _ ha.ne_nil]
      exact hta.1
    refine (dropWhile_append_tight hw₁ hhead).trans ?_
    simp
  have hslash : '/' ∉ a ++ (w₂ ++ '-' :: (w₃ ++ (b ++ w₄))) := by
    simp [notMem_numeral ha, notMem_numeral hb, notMem_blank hw₂ (c := '/') (by decide),
      notMem_blank hw₃ (c := '/') (by decide), notMem_blank hw₄ (c := '/') (by decide)]
  have hrange : trim (a ++ (w₂ ++ '-' :: (w₃ ++ (b ++ w₄)))) = (a ++ w₂) ++ '-' :: (w₃ ++ b) := by
    have htight := tight_append hta ha.ne_nil (w₂ ++ '-' :: w₃) htb hb.ne_nil
    have htrim := trim_blanks blank_nil hw₄ htight
    simpa using htrim
  have hdash : '-' ∉ a ++ w₂ := by
    simp [notMem_numeral ha, notMem_blank hw₂ (c := '-') (by decide)]
  have hta' : trim (a ++ w₂) = a := by simpa using trim_blanks blank_nil hw₂ hta
  have htb' : trim (w₃ ++ b) = b := by simpa using trim_blanks hw₃ blank_nil htb
  have htt' : trim (w₅ ++ t) = t := by simpa using trim_blanks hw₅ blank_nil ht.tight
  have hpa : parseU64 a = some cr.start :=
    parseDecimal_eq_some.2 ⟨ha, cr.start_le.trans hstop⟩
  have hpb : parseU64 b = some cr.stop := parseDecimal_eq_some.2 ⟨hb, hstop⟩
  have hpt : parseTotal t = some cr.total := parseTotal_eq_some.2 ⟨ht, htotal⟩
  have hdrop := List.dropPrefix?_append_of_beq
    (w₁ ++ (a ++ (w₂ ++ '-' :: (w₃ ++ (b ++ (w₄ ++ '/' :: (w₅ ++ t)))))))
    (beq_self_eq_true ['b', 'y', 't', 'e', 's'])
  have hlt : ∀ n ∈ cr.total, cr.stop < n := cr.stop_lt
  rw [parseContentRange, hcore, hdrop]
  simp only [Option.bind_eq_bind, Option.bind_some, hspec, splitOnce_append hslash, hrange,
    splitOnce_append hdash, hta', htb', htt', hpa, hpb, hpt]
  rw [dif_neg (not_lt.2 cr.start_le), dif_pos hlt]

/-- What is parsed is a text of the grammar. -/
theorem written_of_parse (h : parseContentRange v = some cr) :
    Written v cr.start cr.stop cr.total ∧ cr.stop ≤ u64Max ∧ ∀ n ∈ cr.total, n ≤ u64Max := by
  simp only [parseContentRange, Option.bind_eq_bind, Option.bind_eq_some_iff] at h
  obtain ⟨spec, hspec, ⟨range, total'⟩, hslash, ⟨a', b'⟩, hdash, start, hstart, stop, hstop, h⟩ := h
  split_ifs at h with hle
  obtain ⟨total, htotal, h⟩ := Option.bind_eq_some_iff.1 h
  split_ifs at h with hlt
  obtain rfl := Option.some.inj h
  obtain ⟨ha, -⟩ := parseDecimal_eq_some.1 hstart
  obtain ⟨hb, hmax⟩ := parseDecimal_eq_some.1 hstop
  obtain ⟨ht, htmax⟩ := parseTotal_eq_some.1 htotal
  refine ⟨?_, hmax, htmax⟩
  obtain ⟨bytes, hbytes, hbeq⟩ := List.dropPrefix?_eq_some_iff.1 hspec
  obtain rfl := eq_of_beq hbeq
  obtain ⟨hsplit, -⟩ := splitOnce_eq_some.1 hslash
  obtain ⟨hsplit', -⟩ := splitOnce_eq_some.1 hdash
  dsimp only at hsplit hsplit'
  obtain ⟨w₀, w₆, hv, hw₀, hw₆⟩ := trim_parts v
  obtain ⟨r₁, r₂, hr, hr₁, hr₂⟩ := trim_parts range
  obtain ⟨x₁, x₂, hx, hx₁, hx₂⟩ := trim_parts a'
  obtain ⟨y₁, y₂, hy, hy₁, hy₂⟩ := trim_parts b'
  obtain ⟨z₁, z₂, hz, hz₁, hz₂⟩ := trim_parts total'
  obtain ⟨w₁, hspec', hw₁⟩ : ∃ w₁, w₁ ++ trimStart spec = spec ∧ Blank w₁ :=
    ⟨spec.takeWhile isWhitespace, List.takeWhile_append_dropWhile,
      fun c hc => List.mem_takeWhile_imp hc⟩
  dsimp only at ha hb ht
  generalize trim a' = a, trim b' = b, trim total' = t at ha hb ht hx hy hz
  refine ⟨w₀, w₁ ++ (r₁ ++ x₁), a, x₂, y₁, b, y₂ ++ r₂, z₁, t, z₂ ++ w₆,
    ?_, ?_, ha, hb, ht⟩
  · rw [hv, hbytes, ← hspec', hsplit, hr, hsplit', hx, hy, hz]
    simp
  · simp only [List.forall_mem_cons, List.not_mem_nil, false_implies, implies_true, and_true]
    exact ⟨hw₀, hw₁.append (hr₁.append hx₁), hx₂, hy₁, hy₂.append hr₂, hz₁, hz₂.append hw₆⟩

/-- **The parser decides the grammar**: it accepts the texts whose numbers fit and are consistent,
and reads their numbers. -/
theorem parseContentRange_eq_some :
    parseContentRange v = some cr ↔
      Written v cr.start cr.stop cr.total ∧ cr.stop ≤ u64Max ∧ ∀ n ∈ cr.total, n ≤ u64Max :=
  ⟨written_of_parse, fun ⟨h, hstop, htotal⟩ => parse_of_written h hstop htotal⟩

/-! ### Lengths -/

theorem len_eq_iff : cr.len = some (cr.stop - cr.start + 1) ↔ cr.stop < u64Max := by
  have hle := cr.start_le
  unfold len
  split_ifs with h
  · simp only [Option.some.injEq]
    omega
  · simp only [false_iff]
    omega

/-- What `print` writes is a text of the grammar. -/
theorem written_print (cr : ContentRange) : Written cr.print cr.start cr.stop cr.total := by
  have hspace : Blank [' '] := by simp [Blank, isWhitespace]
  refine ⟨[], [' '], _, [], [], _, [], [], cr.total.elim ['*'] (Nat.toDigits 10), [], ?_, ?_,
    numeral_toDigits _, numeral_toDigits _, ?_⟩
  · simp [print]
  · simp [hspace, blank_nil]
  · cases cr.total with
    | none => rfl
    | some n => exact numeral_toDigits n

/-- **`Content-Range` on untrusted input.**  What is parsed is consistent, its length is defined and
right unless the header says that the range ends at the last `u64` and does not tell the total, and
what is printed parses back. -/
theorem contentRange_sound_iff (v : Name) :
    ((∀ cr, parseContentRange v = some cr → cr.start ≤ cr.stop ∧
        (∀ t, cr.total = some t → cr.stop < t) ∧ cr.len = some (cr.stop - cr.start + 1)) ↔
      ¬ ∃ start ≤ u64Max, Written v start u64Max none) ∧
    ∀ cr : ContentRange, cr.stop ≤ u64Max → (∀ t, cr.total = some t → t ≤ u64Max) →
      parseContentRange cr.print = some cr := by
  refine ⟨⟨?_, ?_⟩, fun cr hstop htotal => ?_⟩
  · rintro h ⟨start, hstart, hw⟩
    have hparse : parseContentRange v = some ⟨start, u64Max, none, hstart, by simp⟩ :=
      parse_of_written hw le_rfl (by simp)
    exact absurd (len_eq_iff.1 (h _ hparse).2.2) (lt_irrefl u64Max)
  · intro h cr hcr
    obtain ⟨hw, hstop, htotal⟩ := written_of_parse hcr
    refine ⟨cr.start_le, cr.stop_lt, len_eq_iff.2 (lt_of_le_of_ne hstop fun htop => ?_)⟩
    -- a total would have to be larger than the last offset
    have hnone : cr.total = none := by
      cases ht : cr.total with
      | none => rfl
      | some n =>
        have := cr.stop_lt n ht
        have := htotal n ht
        omega
    rw [htop, hnone] at hw
    exact h ⟨cr.start, htop ▸ cr.start_le, hw⟩
  · exact parse_of_written (written_print cr) hstop htotal

theorem contentRange_sound_zero :
    parseContentRange ['b', 'y', 't', 'e', 's', ' ', '0', '-', '3', '/', '4'] =
      some ⟨0, 3, some 4, by decide, by decide⟩ := by
  have hprint : print ⟨0, 3, some 4, by decide, by decide⟩ =
      ['b', 'y', 't', 'e', 's', ' ', '0', '-', '3', '/', '4'] := by decide
  rw [← hprint]
  exact (contentRange_sound_iff []).2 _ (by decide) (by decide)

/-- `bytes 0-18446744073709551615/*`. -/
def toTheTop : ContentRange := ⟨0, u64Max, none, Nat.zero_le _, by simp⟩

theorem contentRange_overflows :
    ¬ ∀ v cr, parseContentRange v = some cr → cr.start ≤ cr.stop ∧
      (∀ t, cr.total = some t → cr.stop < t) ∧ cr.len = some (cr.stop - cr.start + 1) := by
  intro h
  have hprint : toTheTop.print = "bytes 0-18446744073709551615/*".toList := by decide
  have hparse : parseContentRange "bytes 0-18446744073709551615/*".toList = some toTheTop := by
    rw [← hprint]
    exact parse_of_written (written_print _) le_rfl (by simp [toTheTop])
  exact absurd (h _ _ hparse).2.2 (by decide)

end ContentRange

end SwiftLoad
