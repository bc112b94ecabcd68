import Mathlib.Data.List.DropRight
import SwiftLoad.Util.Filename

/-!
# Names that `sanitize` keeps

`sanitize` in its steps, what holds of each of its results, and the names it leaves as they are.

* `plain_sanitize`, `head_sanitize`, `utf16Len_sanitize` : what every result satisfies.
* `Safe` : a name that needs no repair.
* `sanitize_eq_iff` : **`sanitize` makes a name its last component exactly when that is safe.**
-/

namespace SwiftLoad

namespace Filename

/-- A character that a result of `sanitize` may contain. -/
def isPlain (c : Char) : Bool := !isSeparator c && !isControl c && !isBidi c && !isInvalid c

/-- The trimmed name, or a name for nothing. -/
def fallback (cleaned : Name) : Name :=
  let cleaned := if cleaned.all (· == '.') then [] else cleaned
  let trimmed := trimStart (trimEndMatches (fun c => c == ' ' || c == '.') cleaned)
  if trimmed = [] then ['d', 'o', 'w', 'n', 'l', 'o', 'a', 'd'] else trimmed

/-- A name that is no device. -/
def unreserve (name : Name) : Name :=
  if reserved.contains ((stem name).map Char.toLower) then '_' :: name else name

theorem sanitize_eq (raw : Name) : sanitize raw =
    truncatePreservingExtension (unreserve (fallback (clean (trim (lastComponent raw))))) := by
  simp only [unreserve, List.contains_iff_mem]
  rfl

/-- A name that needs no repair. -/
structure Safe (name : Name) : Prop where
  nonempty : name ≠ []
  plain : ∀ c ∈ name, isPlain c = true
  starts : ∀ c ∈ name.head?, isWhitespace c = false
  ends : ∀ c ∈ name.getLast?, isWhitespace c = false ∧ c ≠ '.'
  unreserved : (stem name).map Char.toLower ∉ reserved
  short : utf16Len name ≤ maxStemUtf16

theorem safe_iff (name : Name) : Safe name ↔
    name ≠ [] ∧ name.all isPlain = true ∧ name.head?.all (fun c => !isWhitespace c) = true ∧
      name.getLast?.all (fun c => !isWhitespace c && c != '.') = true ∧
      reserved.contains ((stem name).map Char.toLower) = false ∧
      utf16Len name ≤ maxStemUtf16 := by
  have hres : reserved.contains ((stem name).map Char.toLower) = false ↔
      (stem name).map Char.toLower ∉ reserved := by
    rw [← Bool.not_eq_true, List.contains_iff_mem]
  rw [hres]
  constructor
  · intro h
    refine ⟨h.nonempty, List.all_eq_true.2 h.plain, (Option.all_eq_true _ _).2 ?_,
      (Option.all_eq_true _ _).2 ?_, h.unreserved, h.short⟩
    · exact fun c hc => by simpa using h.starts c hc
    · exact fun c hc => by simpa using h.ends c hc
  · rintro ⟨hne, hplain, hhead, hlast, hres, hlen⟩
    refine ⟨hne, List.all_eq_true.1 hplain, fun c hc => ?_, fun c hc => ?_, hres, hlen⟩
    · simpa using (Option.all_eq_true _ _).1 hhead c hc
    · simpa using (Option.all_eq_true _ _).1 hlast c hc

instance (name : Name) : Decidable (Safe name) := decidable_of_iff' _ (safe_iff name)

variable {name raw : Name} {c : Char} {n : ℕ}

/-! ### The steps -/

theorem utf16Len_append (a b : Name) : utf16Len (a ++ b) = utf16Len a + utf16Len b := by
  simp [utf16Len]

theorem utf16Len_cons (c : Char) (s : Name) :
    utf16Len (c :: s) = (if c.toNat < 0x10000 then 1 else 2) + utf16Len s := by
  simp [utf16Len]

theorem truncateByUtf16_spec (s : Name) (max : ℕ) :
    truncateByUtf16 s max <+: s ∧ utf16Len (truncateByUtf16 s max) ≤ max := by
  induction s generalizing max with
  | nil => exact ⟨List.prefix_rfl, Nat.zero_le _⟩
  | cons c s ih =>
    simp only [truncateByUtf16]
    by_cases hfull : max < if c.toNat < 0x10000 then 1 else 2
    · rw [if_pos hfull]
      exact ⟨List.nil_prefix, Nat.zero_le _⟩
    · rw [if_neg hfull, utf16Len_cons]
      obtain ⟨hpre, hlen⟩ := ih (max - if c.toNat < 0x10000 then 1 else 2)
      exact ⟨List.cons_prefix_cons.2 ⟨rfl, hpre⟩, by omega⟩

theorem head?_truncateByUtf16 {max : ℕ} (h : 2 ≤ max) (s : Name) :
    (truncateByUtf16 s max).head? = s.head? := by
  cases s with
  | nil => rfl
  | cons c s =>
    simp only [truncateByUtf16]
    rw [if_neg (by split_ifs <;> omega)]
    rfl

theorem rsplitDot_eq_some {stem ext : Name} (h : rsplitDot name = some (stem, ext)) :
    name = stem ++ '.' :: ext := by
  unfold rsplitDot at h
  by_cases hdot : '.' ∈ name
  · rw [if_pos hdot] at h
    obtain ⟨rfl, rfl⟩ := Prod.mk.inj (Option.some.inj h)
    -- what precedes the extension ends in the dot
    have hne : name.rdropWhile (· != '.') ≠ [] := fun hnil => by
      have hall := List.rdropWhile_eq_nil_iff.1 hnil '.' hdot
      exact absurd hall (by decide)
    have hlast : (name.rdropWhile (· != '.')).getLast hne = '.' := by
      simpa using List.rdropWhile_last_not _ _ hne
    have hdrop := List.dropLast_append_getLast hne
    rw [hlast] at hdrop
    have hsplit : (name.rdropWhile (· != '.')).dropLast ++ '.' :: name.rtakeWhile (· != '.') =
        name := by
      rw [List.append_cons, hdrop]
      exact List.rdropWhile_append_rtakeWhile
    have hlen := congrArg List.length hsplit
    rw [List.length_append, List.length_cons] at hlen
    change name = name.take (name.length - (name.rtakeWhile (· != '.')).length - 1) ++
      '.' :: name.rtakeWhile (· != '.')
    have htake : name.take (name.length - (name.rtakeWhile (· != '.')).length - 1) =
        (name.rdropWhile (· != '.')).dropLast := by
      rw [show name.length - (name.rtakeWhile (· != '.')).length - 1 =
        (name.rdropWhile (· != '.')).dropLast.length by omega]
      have htake := congrArg (List.take (name.rdropWhile (· != '.')).dropLast.length) hsplit
      rw [List.take_left' rfl] at htake
      exact htake.symm
    rw [htake, hsplit]
  · rw [if_neg hdot] at h
    cases h

theorem truncatePreservingExtension_spec (name : Name) :
    (∀ c ∈ truncatePreservingExtension name, c ∈ name) ∧
      (truncatePreservingExtension name).head? = name.head? ∧
      utf16Len (truncatePreservingExtension name) ≤ maxStemUtf16 := by
  unfold truncatePreservingExtension
  by_cases hshort : utf16Len name ≤ maxStemUtf16
  · rw [if_pos hshort]
    exact ⟨fun c hc => hc, rfl, hshort⟩
  · rw [if_neg hshort]
    obtain ⟨hpre, hlen⟩ := truncateByUtf16_spec name maxStemUtf16
    have hcut : (∀ c ∈ truncateByUtf16 name maxStemUtf16, c ∈ name) ∧
        (truncateByUtf16 name maxStemUtf16).head? = name.head? ∧
        utf16Len (truncateByUtf16 name maxStemUtf16) ≤ maxStemUtf16 :=
      ⟨fun c hc => hpre.subset hc, head?_truncateByUtf16 (by decide) name, hlen⟩
    cases hdot : rsplitDot name with
    | none => exact hcut
    | some p =>
      obtain ⟨stem, ext⟩ := p
      dsimp only
      by_cases hext : ext ≠ [] ∧ utf16Len ext ≤ 16
      · rw [if_pos hext]
        have hname := rsplitDot_eq_some hdot
        obtain ⟨hpre', hlen'⟩ :=
          truncateByUtf16_spec stem (maxStemUtf16 - (utf16Len ext + 1))
        have hmax : maxStemUtf16 = 200 := rfl
        have hstem : stem ≠ [] := by
          rintro rfl
          rw [hname, List.nil_append, utf16Len_cons] at hshort
          have hdot1 : (if ('.' : Char).toNat < 0x10000 then 1 else 2) = 1 := by decide
          omega
        refine ⟨fun c hc => ?_, ?_, ?_⟩
        · rw [hname]
          rcases List.mem_append.1 hc with hc | hc
          · exact List.mem_append_left _ (hpre'.subset hc)
          · exact List.mem_append_right _ hc
        · have hhead := head?_truncateByUtf16 (show 2 ≤ maxStemUtf16 - (utf16Len ext + 1) by omega)
            stem
          obtain ⟨a, s, rfl⟩ := List.exists_cons_of_ne_nil hstem
          rw [List.head?_append, hhead, hname]
          rfl
        · have hdot1 : (if ('.' : Char).toNat < 0x10000 then 1 else 2) = 1 := by decide
          rw [utf16Len_append, utf16Len_cons, hdot1]
          omega
      · rw [if_neg hext]
        exact hcut

theorem truncatePreservingExtension_of_short (h : utf16Len name ≤ maxStemUtf16) :
    truncatePreservingExtension name = name := if_pos h

theorem trimStart_eq_self (h : ∀ c ∈ name.head?, isWhitespace c = false) :
    trimStart name = name := by
  cases name with
  | nil => rfl
  | cons c s =>
    unfold trimStart
    rw [List.dropWhile_cons_of_neg (by rw [h c rfl]; decide)]

theorem head?_trimStart : ∀ c ∈ (trimStart name).head?, isWhitespace c = false := by
  intro c hc
  have h := List.head?_dropWhile_not isWhitespace name
  unfold trimStart at hc
  rw [Option.mem_def.1 hc] at h
  exact h

theorem trimEndMatches_isPrefix (p : Char → Bool) (s : Name) : trimEndMatches p s <+: s :=
  List.rdropWhile_prefix p s

theorem trimEndMatches_eq_self_iff {p : Char → Bool} {s : Name} :
    trimEndMatches p s = s ↔ ∀ c ∈ s.getLast?, p c = false := by
  change s.rdropWhile p = s ↔ _
  rcases List.eq_nil_or_concat' s with rfl | ⟨t, c, rfl⟩
  · simp
  · rw [List.rdropWhile_eq_self_iff]
    simp

theorem lastComponent_not_separator (hc : c ∈ lastComponent raw) : isSeparator c = false := by
  have h := List.mem_rtakeWhile_imp hc
  simpa using h

theorem clean_eq_self (h : ∀ c ∈ name, isPlain c = true) : clean name = name := by
  have hfilter : (name.filter fun c => !isControl c && !isBidi c) = name :=
    List.filter_eq_self.2 fun c hc => by
      have hplain := h c hc
      simp only [isPlain, Bool.and_eq_true] at hplain
      simp [hplain.1.1.2, hplain.1.2]
  unfold clean
  rw [hfilter]
  conv_rhs => rw [← List.map_id name]
  refine List.map_congr_left fun c hc => if_neg ?_
  have hplain := h c hc
  simp only [isPlain, Bool.and_eq_true] at hplain
  simpa using hplain.2

theorem plain_clean (h : ∀ c ∈ name, isSeparator c = false) :
    ∀ c ∈ clean name, isPlain c = true := by
  intro c hc
  obtain ⟨a, ha, rfl⟩ := List.mem_map.1 hc
  obtain ⟨hmem, hkeep⟩ := List.mem_filter.1 ha
  by_cases hinv : isInvalid a = true
  · rw [if_pos hinv]
    decide
  · rw [if_neg hinv]
    simp only [isPlain, h a hmem, Bool.not_eq_true _ ▸ hinv]
    simpa using hkeep

theorem trimStart_suffix (s : Name) : trimStart s <:+ s := List.dropWhile_suffix _

theorem fallback_spec (cleaned : Name) :
    fallback cleaned ≠ [] ∧ (∀ c ∈ (fallback cleaned).head?, isWhitespace c = false) ∧
      ((∀ c ∈ cleaned, isPlain c = true) → ∀ c ∈ fallback cleaned, isPlain c = true) := by
  unfold fallback
  dsimp only
  by_cases hnil : trimStart (trimEndMatches (fun c => c == ' ' || c == '.')
      (if cleaned.all (· == '.') then [] else cleaned)) = []
  · rw [if_pos hnil]
    refine ⟨by decide, ?_, fun _ => List.all_eq_true.1 (by decide)⟩
    intro c hc
    obtain rfl := Option.mem_some.1 hc
    decide
  · rw [if_neg hnil]
    refine ⟨hnil, head?_trimStart, fun h c hc => ?_⟩
    have hmem := (trimEndMatches_isPrefix _ _).subset ((trimStart_suffix _).subset hc)
    split_ifs at hmem
    · cases hmem
    · exact h c hmem

theorem unreserve_spec {name : Name} (hne : name ≠ []) :
    unreserve name ≠ [] ∧
      ((∀ c ∈ name.head?, isWhitespace c = false) →
        ∀ c ∈ (unreserve name).head?, isWhitespace c = false) ∧
      ((∀ c ∈ name, isPlain c = true) → ∀ c ∈ unreserve name, isPlain c = true) := by
  unfold unreserve
  split_ifs
  · refine ⟨List.cons_ne_nil _ _, fun _ c hc => ?_, fun h c hc => ?_⟩
    · obtain rfl := Option.some.inj hc
      decide
    · rcases List.mem_cons.1 hc with rfl | hc
      · decide
      · exact h c hc
  · exact ⟨hne, fun h => h, fun h => h⟩

/-! ### Every result -/

theorem plain_sanitize (raw : Name) : ∀ c ∈ sanitize raw, isPlain c = true := by
  intro c hc
  rw [sanitize_eq] at hc
  refine (unreserve_spec (fallback_spec _).1).2.2 ((fallback_spec _).2.2 (plain_clean ?_)) c
    ((truncatePreservingExtension_spec _).1 c hc)
  intro c hc
  have hmem : c ∈ trimStart (lastComponent raw) := (trimEndMatches_isPrefix _ _).subset hc
  exact lastComponent_not_separator ((trimStart_suffix _).subset hmem)

/-- A result starts with a character that is no white space. -/
theorem head_sanitize (raw : Name) :
    sanitize raw ≠ [] ∧ ∀ c ∈ (sanitize raw).head?, isWhitespace c = false := by
  have hne := (fallback_spec (clean (trim (lastComponent raw)))).1
  obtain ⟨hne', hhead, -⟩ := unreserve_spec hne
  have htrunc := (truncatePreservingExtension_spec
    (unreserve (fallback (clean (trim (lastComponent raw)))))).2.1
  rw [sanitize_eq, htrunc]
  refine ⟨fun hnil => ?_, hhead (fallback_spec _).2.1⟩
  rw [hnil] at htrunc
  exact hne' (List.head?_eq_none_iff.1 htrunc.symm)

theorem utf16Len_sanitize (raw : Name) : utf16Len (sanitize raw) ≤ maxStemUtf16 := by
  rw [sanitize_eq]
  exact (truncatePreservingExtension_spec _).2.2

/-! ### Results that are the name itself -/

theorem trim_eq_self (hs : ∀ c ∈ name.head?, isWhitespace c = false)
    (he : ∀ c ∈ name.getLast?, isWhitespace c = false) : trim name = name := by
  unfold trim
  rw [trimStart_eq_self hs]
  exact trimEndMatches_eq_self_iff.2 he

/-- A safe name is left as it is. -/
theorem sanitize_of_safe (h : Safe (lastComponent raw)) : sanitize raw = lastComponent raw := by
  obtain ⟨hne, hplain, hstart, hend, hres, hshort⟩ := h
  have hdots : (lastComponent raw).all (· == '.') = false := by
    obtain ⟨t, c, ht⟩ := (List.eq_nil_or_concat' _).resolve_left hne
    have hc := (hend c (by rw [ht]; simp)).2
    rw [ht, List.all_append]
    simp [hc]
  have hfall : fallback (lastComponent raw) = lastComponent raw := by
    unfold fallback
    rw [hdots]
    have htrim : trimEndMatches (fun c => c == ' ' || c == '.') (lastComponent raw) =
        lastComponent raw := trimEndMatches_eq_self_iff.2 fun c hc => by
      obtain ⟨hws, hdot⟩ := hend c hc
      have hsp : c ≠ ' ' := by
        rintro rfl
        exact absurd hws (by decide)
      simp [hdot, hsp]
    simp [htrim, trimStart_eq_self hstart, hne]
  rw [sanitize_eq, trim_eq_self hstart fun c hc => (hend c hc).1, clean_eq_self hplain, hfall,
    unreserve, if_neg (mt List.contains_iff_mem.1 hres),
    truncatePreservingExtension_of_short hshort]

theorem safe_download : Safe ['d', 'o', 'w', 'n', 'l', 'o', 'a', 'd'] := by decide

theorem head?_of_isPrefix {a b : Name} (h : a <+: b) (hne : a ≠ []) : a.head? = b.head? := by
  obtain ⟨t, rfl⟩ := h
  rw [List.head?_append, List.head?_eq_some_head hne, Option.some_or]

theorem not_reserved_underscore (h : name.head? = some '_') :
    (stem name).map Char.toLower ∉ reserved := by
  have hhead : ∀ r ∈ reserved, r.head? ≠ some '_' := by decide
  intro hmem
  refine hhead _ hmem ?_
  cases name with
  | nil => cases h
  | cons c s =>
    obtain rfl := Option.some.inj h
    rfl

/-- Of a name that starts well, the fallback keeps a first part, if there is one. -/
theorem fallback_cases (h : ∀ c ∈ name.head?, isWhitespace c = false) :
    fallback name = ['d', 'o', 'w', 'n', 'l', 'o', 'a', 'd'] ∨
      fallback name = trimEndMatches (fun c => c == ' ' || c == '.') name ∧
        trimEndMatches (fun c => c == ' ' || c == '.') name ≠ [] := by
  by_cases hdots : name.all (· == '.') = true
  · refine .inl (if_pos ?_)
    rw [if_pos hdots]
    rfl
  · by_cases hnil : trimEndMatches (fun c => c == ' ' || c == '.') name = []
    · refine .inl (if_pos ?_)
      rw [if_neg hdots, hnil]
      rfl
    · have hhead := head?_of_isPrefix (trimEndMatches_isPrefix (fun c => c == ' ' || c == '.') name)
        hnil
      have hself : trimStart (trimEndMatches (fun c => c == ' ' || c == '.') name) =
          trimEndMatches (fun c => c == ' ' || c == '.') name :=
        trimStart_eq_self (by rw [hhead]; exact h)
      refine .inr ⟨?_, hnil⟩
      unfold fallback
      dsimp only
      rw [if_neg hdots, hself, if_neg hnil]

/-- A first part of a name that repairs to the name is the name, and no device. -/
theorem eq_of_truncate_unreserve {u : Name} (hu : u <+: name) (hne : u ≠ [])
    (hshort : utf16Len name ≤ maxStemUtf16)
    (h : truncatePreservingExtension (unreserve u) = name) :
    u = name ∧ (stem u).map Char.toLower ∉ reserved := by
  have hres : (stem u).map Char.toLower ∉ reserved := by
    by_cases hhead : u.head? = some '_'
    · exact not_reserved_underscore hhead
    · intro hmem
      -- the underscore that is put in front would stand in the name already
      rw [unreserve, if_pos (List.contains_iff_mem.2 hmem)] at h
      have hfirst := (truncatePreservingExtension_spec ('_' :: u)).2.1
      rw [h, ← head?_of_isPrefix hu hne] at hfirst
      exact hhead hfirst
  have hushort : utf16Len u ≤ maxStemUtf16 := by
    obtain ⟨v, rfl⟩ := hu
    rw [utf16Len_append] at hshort
    omega
  rw [unreserve, if_neg (mt List.contains_iff_mem.1 hres),
    truncatePreservingExtension_of_short hushort] at h
  exact ⟨h, hres⟩

/-- A name that is its own result is safe. -/
theorem safe_of_sanitize (h : sanitize raw = lastComponent raw) : Safe (lastComponent raw) := by
  obtain ⟨hne, hstart⟩ := head_sanitize raw
  have hplain := plain_sanitize raw
  have hshort := utf16Len_sanitize raw
  rw [h] at hne hstart hplain hshort
  rw [sanitize_eq] at h
  generalize lastComponent raw = name at *
  -- trimming and cleaning only cut the end
  have htrim : trim name = trimEndMatches isWhitespace name := by
    unfold trim
    rw [trimStart_eq_self hstart]
  have ht := trimEndMatches_isPrefix isWhitespace name
  rw [htrim, clean_eq_self fun c hc => hplain c (ht.subset hc)] at h
  have hthead : ∀ c ∈ (trimEndMatches isWhitespace name).head?, isWhitespace c = false := by
    intro c hc
    refine hstart c ?_
    rwa [← head?_of_isPrefix ht (fun hnil => by rw [hnil] at hc; cases hc)]
  rcases fallback_cases hthead with hfall | ⟨hfall, hune⟩
  · rw [hfall] at h
    rw [← h]
    exact safe_download
  · rw [hfall] at h
    have hut := trimEndMatches_isPrefix (fun c => c == ' ' || c == '.')
      (trimEndMatches isWhitespace name)
    obtain ⟨hu, hres⟩ := eq_of_truncate_unreserve (hut.trans ht) hune hshort h
    -- nothing has been cut
    have hends : trimEndMatches isWhitespace name = name :=
      ht.eq_of_length_le ((congrArg List.length hu).symm.trans_le hut.length_le)
    rw [hends] at hu hres
    refine ⟨hne, hplain, hstart, fun c hc => ⟨trimEndMatches_eq_self_iff.1 hends c hc, ?_⟩, ?_,
      hshort⟩
    · have hdot := trimEndMatches_eq_self_iff.1 hu c hc
      rintro rfl
      exact absurd hdot (by decide)
    · rwa [hu] at hres

/-- **Names without repair.**  The result is the last component of the name as it stands exactly
when that component is safe. -/
theorem sanitize_eq_iff : sanitize raw = lastComponent raw ↔ Safe (lastComponent raw) :=
  ⟨safe_of_sanitize, sanitize_of_safe⟩

end Filename

end SwiftLoad
