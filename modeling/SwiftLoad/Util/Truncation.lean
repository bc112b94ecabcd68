import SwiftLoad.Util.SafeName

/-!
# Names that are cut

The last step of `sanitize` cuts a long name: before its extension when that is short, and in the
middle of the name otherwise.  Whatever the name is cut after is then its last character, after
the trailing dots and blanks were trimmed.

* `repaired` : the name before it is cut; `CutShort` : one that is cut without an extension.
* `LastFit` : the last character that fits.
* `Creatable` : a name that can be created as it is; `creatable_sanitize_iff` : **which names have
  such a result.**
* `sanitize_idempotent_iff` : **which results stay the same when they are sanitized again.**
-/

namespace SwiftLoad

namespace Filename

/-- The name after all repairs, before it is cut. -/
def repaired (raw : Name) : Name := unreserve (fallback (clean (trim (lastComponent raw))))

/-- A name that is too long and has no extension that is worth keeping. -/
def CutShort (name : Name) : Prop :=
  maxStemUtf16 < utf16Len name ∧
    ∀ stem ext, name = stem ++ '.' :: ext → '.' ∉ ext → ext = [] ∨ 16 < utf16Len ext

/-- The last character of a name that fits. -/
def LastFit (name : Name) (c : Char) : Prop :=
  ∃ p q, name = p ++ c :: q ∧ utf16Len (p ++ [c]) ≤ maxStemUtf16 ∧
    ∀ d ∈ q.head?, maxStemUtf16 < utf16Len (p ++ [c, d])

/-- One component that Windows creates under just this name. -/
structure Creatable (name : Name) : Prop where
  nonempty : name ≠ []
  plain : ∀ c ∈ name, isPlain c = true
  notDots : name ≠ ['.'] ∧ name ≠ ['.', '.']
  ends : ∀ c ∈ name.getLast?, c ≠ ' ' ∧ c ≠ '.'
  unreserved : (stem name).map Char.toLower ∉ reserved
  short : utf16Len name ≤ maxStemUtf16

variable {name raw ext : Name} {c : Char} {n : ℕ}

/-! ### What fits -/

theorem utf16Len_nil : utf16Len [] = 0 := rfl

theorem utf16Len_le (s : Name) : utf16Len s ≤ 2 * s.length := by
  induction s with
  | nil => exact Nat.zero_le _
  | cons c s ih =>
    rw [utf16Len_cons, List.length_cons]
    split_ifs <;> omega

/-- A first part that fits, with the next character too long, is what cutting keeps. -/
theorem truncateByUtf16_append {p q : Name} (hfit : utf16Len p ≤ n)
    (hfull : ∀ d ∈ q.head?, n < utf16Len (p ++ [d])) : truncateByUtf16 (p ++ q) n = p := by
  induction p generalizing n with
  | nil =>
    cases q with
    | nil => rfl
    | cons d q =>
      have hd := hfull d rfl
      rw [List.nil_append, utf16Len_cons, utf16Len_nil] at hd
      exact if_pos hd
  | cons a p ih =>
    rw [utf16Len_cons] at hfit
    simp only [List.cons_append, truncateByUtf16]
    rw [if_neg (by omega), ih (by omega) fun d hd => ?_]
    have hd := hfull d hd
    rw [List.cons_append, utf16Len_cons] at hd
    omega

theorem truncateByUtf16_full (s : Name) (n : ℕ) :
    ∃ q, s = truncateByUtf16 s n ++ q ∧
      ∀ d ∈ q.head?, n < utf16Len (truncateByUtf16 s n ++ [d]) := by
  induction s generalizing n with
  | nil => exact ⟨[], rfl, by simp⟩
  | cons c s ih =>
    simp only [truncateByUtf16]
    by_cases hfull : n < if c.toNat < 0x10000 then 1 else 2
    · rw [if_pos hfull]
      refine ⟨c :: s, rfl, fun d hd => ?_⟩
      obtain rfl := Option.some.inj hd
      rw [List.nil_append, utf16Len_cons, utf16Len_nil]
      exact hfull
    · rw [if_neg hfull]
      obtain ⟨q, hq, hnext⟩ := ih (n - if c.toNat < 0x10000 then 1 else 2)
      refine ⟨q, congrArg (c :: ·) hq, fun d hd => ?_⟩
      have hd := hnext d hd
      rw [List.cons_append, utf16Len_cons]
      omega

theorem le_utf16Len_truncateByUtf16 (h : n < utf16Len name) :
    n ≤ utf16Len (truncateByUtf16 name n) + 1 := by
  obtain ⟨q, hq, hfull⟩ := truncateByUtf16_full name n
  cases q with
  | nil =>
    rw [List.append_nil] at hq
    rw [← hq]
    omega
  | cons d q =>
    have hd := hfull d rfl
    rw [utf16Len_append, utf16Len_cons, utf16Len_nil] at hd
    split_ifs at hd <;> omega

theorem lastFit_iff : LastFit name c ↔ (truncateByUtf16 name maxStemUtf16).getLast? = some c := by
  constructor
  · rintro ⟨p, q, rfl, hfit, hfull⟩
    have hcut : truncateByUtf16 ((p ++ [c]) ++ q) maxStemUtf16 = p ++ [c] :=
      truncateByUtf16_append hfit fun d hd => by
        rw [List.append_assoc]
        exact hfull d hd
    rw [List.append_cons, hcut, List.getLast?_concat]
  · intro h
    obtain ⟨q, hq, hfull⟩ := truncateByUtf16_full name maxStemUtf16
    have hfit := (truncateByUtf16_spec name maxStemUtf16).2
    obtain ⟨p, hp⟩ := List.getLast?_eq_some_iff.1 h
    rw [hp] at hq hfull hfit
    refine ⟨p, q, hq.trans (List.append_cons p c q).symm, hfit, fun d hd => ?_⟩
    have hd := hfull d hd
    rwa [List.append_assoc] at hd

/-! ### The two ways to cut -/

theorem not_mem_of_rsplitDot {stem : Name} (h : rsplitDot name = some (stem, ext)) :
    '.' ∉ ext := by
  unfold rsplitDot at h
  split_ifs at h
  obtain ⟨-, rfl⟩ := Prod.mk.inj (Option.some.inj h)
  intro hmem
  have := List.mem_takeWhile_imp (List.mem_reverse.1 hmem)
  simp at this

theorem rsplitDot_append {stem : Name} (hext : '.' ∉ ext) :
    rsplitDot (stem ++ '.' :: ext) = some (stem, ext) := by
  have htake : ((stem ++ '.' :: ext).reverse.takeWhile (· != '.')).reverse = ext := by
    rw [List.reverse_append, List.reverse_cons, List.append_assoc,
      List.takeWhile_append_of_pos fun a ha => ?_]
    · simp
    · have hne : a ≠ '.' := fun heq => hext (heq ▸ List.mem_reverse.1 ha)
      simpa using hne
  unfold rsplitDot
  rw [if_pos (by simp)]
  dsimp only
  rw [htake, List.take_left' (by rw [List.length_append, List.length_cons]; omega)]

/-- A name is left as it is, cut before its extension, or cut short. -/
theorem truncate_cases (name : Name) :
    (¬CutShort name ∧ truncatePreservingExtension name = name) ∨
    (¬CutShort name ∧ ∃ stem ext, name = stem ++ '.' :: ext ∧ ext ≠ [] ∧ utf16Len ext ≤ 16 ∧
      maxStemUtf16 - (utf16Len ext + 1) < utf16Len stem ∧
      truncatePreservingExtension name =
        truncateByUtf16 stem (maxStemUtf16 - (utf16Len ext + 1)) ++ '.' :: ext) ∨
    (CutShort name ∧ truncatePreservingExtension name = truncateByUtf16 name maxStemUtf16) := by
  unfold truncatePreservingExtension
  by_cases hshort : utf16Len name ≤ maxStemUtf16
  · exact .inl ⟨fun hcut => absurd hcut.1 (Nat.not_lt.2 hshort), if_pos hshort⟩
  · have hlong := Nat.not_le.1 hshort
    rw [if_neg hshort]
    refine .inr ?_
    cases hdot : rsplitDot name with
    | none =>
      refine .inr ⟨⟨hlong, ?_⟩, rfl⟩
      rintro stem ext rfl hext
      rw [rsplitDot_append hext] at hdot
      cases hdot
    | some p =>
      obtain ⟨stem, ext⟩ := p
      have hname := rsplitDot_eq_some hdot
      dsimp only
      by_cases hkeep : ext ≠ [] ∧ utf16Len ext ≤ 16
      · rw [if_pos hkeep]
        refine .inl ⟨fun hcut => ?_, stem, ext, hname, hkeep.1, hkeep.2, ?_, rfl⟩
        · rcases hcut.2 stem ext hname (not_mem_of_rsplitDot hdot) with hnil | hbig
          · exact hkeep.1 hnil
          · exact absurd hkeep.2 (Nat.not_le.2 hbig)
        · rw [hname, utf16Len_append, utf16Len_cons] at hlong
          have hdot1 : (if ('.' : Char).toNat < 0x10000 then 1 else 2) = 1 := by decide
          have hmax : maxStemUtf16 = 200 := rfl
          rw [hdot1] at hlong
          omega
      · rw [if_neg hkeep]
        refine .inr ⟨⟨hlong, fun stem' ext' hname' hext' => ?_⟩, rfl⟩
        rw [hname', rsplitDot_append hext'] at hdot
        obtain ⟨-, rfl⟩ := Prod.mk.inj (Option.some.inj hdot)
        by_cases hnil : ext' = []
        · exact .inl hnil
        · exact .inr (Nat.not_le.1 fun hle => hkeep ⟨hnil, hle⟩)

/-! ### How a result ends -/

theorem sanitize_eq_truncate (raw : Name) :
    sanitize raw = truncatePreservingExtension (repaired raw) := sanitize_eq raw

theorem getLast?_trimStart {s : Name} (h : trimStart s ≠ []) :
    (trimStart s).getLast? = s.getLast? := by
  obtain ⟨t, ht⟩ := trimStart_suffix s
  exact (List.getLast?_append_of_ne_nil t h).symm.trans (congrArg List.getLast? ht)

theorem getLast?_trimEndMatches (p : Char → Bool) (s : Name) :
    ∀ c ∈ (trimEndMatches p s).getLast?, p c = false :=
  trimEndMatches_eq_self_iff.1 (List.rdropWhile_idempotent p s)

theorem getLast?_fallback (s : Name) : ∀ c ∈ (fallback s).getLast?, c ≠ ' ' ∧ c ≠ '.' := by
  intro c hc
  unfold fallback at hc
  dsimp only at hc
  generalize (if s.all (· == '.') then [] else s) = t at hc
  by_cases hnil : trimStart (trimEndMatches (fun c => c == ' ' || c == '.') t) = []
  · rw [if_pos hnil] at hc
    obtain rfl := Option.some.inj hc
    decide
  · rw [if_neg hnil, getLast?_trimStart hnil] at hc
    simpa using getLast?_trimEndMatches _ t c hc

theorem getLast?_repaired (raw : Name) : ∀ c ∈ (repaired raw).getLast?, c ≠ ' ' ∧ c ≠ '.' := by
  intro c hc
  refine getLast?_fallback (clean (trim (lastComponent raw))) c ?_
  have hne := (fallback_spec (clean (trim (lastComponent raw)))).1
  unfold repaired unreserve at hc
  split_ifs at hc
  · obtain ⟨a, s, hs⟩ := List.exists_cons_of_ne_nil hne
    rw [hs] at hc ⊢
    exact hc
  · exact hc

/-- Unless it is cut short, a result ends like the repaired name. -/
theorem getLast?_sanitize (h : ¬CutShort (repaired raw)) :
    (sanitize raw).getLast? = (repaired raw).getLast? := by
  rw [sanitize_eq_truncate]
  rcases truncate_cases (repaired raw) with ⟨-, heq⟩ | ⟨-, stem, ext, hname, hne, -, -, heq⟩ |
    ⟨hcut, -⟩
  · rw [heq]
  · rw [heq, hname, List.getLast?_append_of_ne_nil _ (List.cons_ne_nil _ _),
      List.getLast?_append_of_ne_nil _ (List.cons_ne_nil _ _)]
  · exact absurd hcut h

theorem sanitize_of_cutShort (h : CutShort (repaired raw)) :
    sanitize raw = truncateByUtf16 (repaired raw) maxStemUtf16 := by
  rw [sanitize_eq_truncate]
  rcases truncate_cases (repaired raw) with ⟨hcut, -⟩ | ⟨hcut, -⟩ | ⟨-, heq⟩
  · exact absurd h hcut
  · exact absurd h hcut
  · exact heq

/-! ### Device names -/

theorem stem_append_of_mem {s : Name} (h : '.' ∈ s) (t : Name) : stem (s ++ t) = stem s := by
  unfold stem
  rw [List.takeWhile_append, if_neg]
  intro hlen
  have hall := (List.takeWhile_prefix (· != '.')).eq_of_length hlen
  exact absurd (List.takeWhile_eq_self_iff.1 hall '.' h) (by decide)

theorem stem_append_of_not_mem {s : Name} (h : '.' ∉ s) {t : Name}
    (ht : t = [] ∨ t.head? = some '.') : stem (s ++ t) = s := by
  unfold stem
  rw [List.takeWhile_append_of_pos fun a ha => ?_]
  · rcases ht with rfl | ht
    · simp
    · obtain ⟨u, rfl⟩ := List.head?_eq_some_iff.1 ht
      simp
  · have hne : a ≠ '.' := fun heq => h (heq ▸ ha)
    simpa using hne

theorem length_reserved {s : Name} (h : s ∈ reserved) : s.length ≤ 4 := by
  have hall : ∀ r ∈ reserved, r.length ≤ 4 := by decide
  exact hall s h

/-- The first part of a name is no device when it is long or holds the whole stem. -/
theorem not_reserved_of_first {t rest : Name} (ht : t <+: name) (hlong : 9 ≤ utf16Len t)
    (hrest : rest = [] ∨ rest.head? = some '.')
    (hres : (stem name).map Char.toLower ∉ reserved) :
    (stem (t ++ rest)).map Char.toLower ∉ reserved := by
  by_cases hdot : '.' ∈ t
  · obtain ⟨u, rfl⟩ := ht
    rw [stem_append_of_mem hdot] at hres ⊢
    exact hres
  · have hstem : stem (t ++ rest) = t := stem_append_of_not_mem hdot hrest
    intro hmem
    have hlen := length_reserved hmem
    have hle := utf16Len_le t
    rw [hstem, List.length_map] at hlen
    omega

theorem unreserved_repaired (raw : Name) :
    (stem (repaired raw)).map Char.toLower ∉ reserved := by
  unfold repaired unreserve
  split_ifs with h
  · exact not_reserved_underscore rfl
  · exact mt List.contains_iff_mem.2 h

theorem unreserved_sanitize (raw : Name) : (stem (sanitize raw)).map Char.toLower ∉ reserved := by
  have hres := unreserved_repaired raw
  rw [sanitize_eq_truncate]
  rcases truncate_cases (repaired raw) with ⟨-, heq⟩ |
    ⟨-, stem, ext, hname, -, hext, hlong, heq⟩ | ⟨hcut, heq⟩
  · rwa [heq]
  · rw [heq]
    have ht := (truncateByUtf16_spec stem (maxStemUtf16 - (utf16Len ext + 1))).1
    have hmax : maxStemUtf16 = 200 := rfl
    have hlen := le_utf16Len_truncateByUtf16 hlong
    refine not_reserved_of_first (ht.trans ⟨_, hname.symm⟩) (by omega) (.inr rfl) hres
  · rw [heq, ← List.append_nil (truncateByUtf16 _ _)]
    have hmax : maxStemUtf16 = 200 := rfl
    have hlen := le_utf16Len_truncateByUtf16 hcut.1
    exact not_reserved_of_first (truncateByUtf16_spec _ _).1 (by omega) (.inl rfl) hres

/-- No result is `.` or `..`: a name that was cut is longer, and the others end in no dot. -/
theorem sanitize_ne_dots (raw : Name) : sanitize raw ≠ ['.'] ∧ sanitize raw ≠ ['.', '.'] := by
  by_cases hcut : CutShort (repaired raw)
  · have hlen := le_utf16Len_truncateByUtf16 hcut.1
    have hmax : maxStemUtf16 = 200 := rfl
    rw [← sanitize_of_cutShort hcut] at hlen
    have hle := utf16Len_le (sanitize raw)
    have hlong : 2 < (sanitize raw).length := by omega
    refine ⟨fun hdot => ?_, fun hdot => ?_⟩
    · rw [hdot] at hlong
      exact absurd hlong (by decide)
    · rw [hdot] at hlong
      exact absurd hlong (by decide)
  · have hend := getLast?_repaired raw
    rw [← getLast?_sanitize hcut] at hend
    refine ⟨fun hdot => ?_, fun hdot => ?_⟩
    · exact (hend '.' (by rw [hdot]; rfl)).2 rfl
    · exact (hend '.' (by rw [hdot]; rfl)).2 rfl

/-! ### Results as names -/

/-- **Results that can be created.**  A result is one component that is safe to create on Windows,
unless the name was cut short right after a dot or a blank. -/
theorem creatable_sanitize_iff (raw : Name) : Creatable (sanitize raw) ↔
    (CutShort (repaired raw) → ∀ c, LastFit (repaired raw) c → c ≠ ' ' ∧ c ≠ '.') := by
  constructor
  · intro h hcut c hc
    refine h.ends c ?_
    rw [sanitize_of_cutShort hcut]
    exact lastFit_iff.1 hc
  · intro h
    have hends : ∀ c ∈ (sanitize raw).getLast?, c ≠ ' ' ∧ c ≠ '.' := by
      intro c hc
      by_cases hcut : CutShort (repaired raw)
      · rw [sanitize_of_cutShort hcut] at hc
        exact h hcut c (lastFit_iff.2 hc)
      · rw [getLast?_sanitize hcut] at hc
        exact getLast?_repaired raw c hc
    exact ⟨(head_sanitize raw).1, plain_sanitize raw, sanitize_ne_dots raw, hends,
      unreserved_sanitize raw, utf16Len_sanitize raw⟩

theorem lastComponent_sanitize (raw : Name) : lastComponent (sanitize raw) = sanitize raw := by
  unfold lastComponent
  rw [List.takeWhile_eq_self_iff.2, List.reverse_reverse]
  intro c hc
  have hplain := plain_sanitize raw c (List.mem_reverse.1 hc)
  simp only [isPlain, Bool.and_eq_true] at hplain
  exact hplain.1.1.1

/-- A name without extension whose 200th character is a blank. -/
theorem sanitize_ends_in_blank : ¬Creatable (sanitize (List.replicate 199 'a' ++ [' ', 'b'])) := by
  have hlast : (sanitize (List.replicate 199 'a' ++ [' ', 'b'])).getLast? = some ' ' := by
    decide +kernel
  exact fun h => (h.ends ' ' hlast).1 rfl

/-- **Results that stay.**  Sanitizing a result again changes nothing exactly when the name was cut
short after neither a dot nor white space, or was not cut short and does not end in white space. -/
theorem sanitize_idempotent_iff (raw : Name) : sanitize (sanitize raw) = sanitize raw ↔
    (CutShort (repaired raw) → ∀ c, LastFit (repaired raw) c → isWhitespace c = false ∧ c ≠ '.') ∧
    (¬CutShort (repaired raw) → ∀ c ∈ (repaired raw).getLast?, isWhitespace c = false) := by
  have hsafe : sanitize (sanitize raw) = lastComponent (sanitize raw) ↔
      Safe (lastComponent (sanitize raw)) := sanitize_eq_iff
  rw [lastComponent_sanitize] at hsafe
  have hends : Safe (sanitize raw) ↔
      ∀ c ∈ (sanitize raw).getLast?, isWhitespace c = false ∧ c ≠ '.' :=
    ⟨fun h => h.ends, fun h => ⟨(head_sanitize raw).1, plain_sanitize raw, (head_sanitize raw).2, h,
      unreserved_sanitize raw, utf16Len_sanitize raw⟩⟩
  rw [hsafe, hends]
  by_cases hcut : CutShort (repaired raw)
  · rw [and_iff_left (absurd hcut), forall_prop_of_true hcut, sanitize_of_cutShort hcut]
    exact forall_congr' fun c => imp_congr_left lastFit_iff.symm
  · rw [and_iff_right fun h => absurd h hcut, forall_prop_of_true hcut, getLast?_sanitize hcut]
    exact forall₂_congr fun c hc => and_iff_left (getLast?_repaired raw c hc).2

/-- A no-break space that was in front of the trailing dot is trimmed the next time. -/
theorem sanitize_twice :
    sanitize ['x', '\u00a0', '.'] = ['x', '\u00a0'] ∧
      sanitize (sanitize ['x', '\u00a0', '.']) = ['x'] := by
  decide +kernel

end Filename

end SwiftLoad
