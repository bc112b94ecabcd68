import Mathlib.Data.List.DropRight
import Mathlib.Data.List.TakeWhile

/-!
# Texts: trimming, splitting and numbers

What parsers of header fields are made of.  A text is a list, mostly of characters.  Each function
comes with the texts that it takes apart, so that a parser built from them can be compared with a
grammar.

* `Text.strip` : drop the blanks at either end; what is left is `Text.Tight`.
* `Text.splitOnce` : split at the first separator.
* `Text.splitn` : split at the first separators into at most `n` parts.
* `Text.parseDecimal` : read an unsigned decimal number; it accepts the texts of `Text.Numeral`.
-/

namespace SwiftLoad

namespace Text

section Strip

variable {α : Type*} {p : α → Bool} {s w w' : List α}

/-- Drop the elements of either end that satisfy `p`. -/
def strip (p : α → Bool) (s : List α) : List α := (s.dropWhile p).rdropWhile p

/-- Neither end satisfies `p`. -/
def Tight (p : α → Bool) (s : List α) : Prop :=
  (∀ c ∈ s.head?, p c = false) ∧ ∀ c ∈ s.getLast?, p c = false

theorem tight_of_forall (h : ∀ c ∈ s, p c = false) : Tight p s :=
  ⟨fun c hc => h c (List.mem_of_head? hc), fun c hc => h c (List.mem_of_getLast? hc)⟩

/-- Only the ends count. -/
theorem tight_append {t : List α} (hs : Tight p s) (hne : s ≠ []) (mid : List α) (ht : Tight p t)
    (hne' : t ≠ []) : Tight p (s ++ (mid ++ t)) := by
  constructor
  · rw [List.head?_append_of_ne_nil _ hne]
    exact hs.1
  · rw [← List.append_assoc, List.getLast?_append_of_ne_nil _ hne']
    exact ht.2

theorem dropWhile_append_tight (hw : ∀ c ∈ w, p c = true) (hs : ∀ c ∈ s.head?, p c = false) :
    (w ++ s).dropWhile p = s := by
  rw [List.dropWhile_append_of_pos hw]
  cases s with
  | nil => rfl
  | cons c s => exact List.dropWhile_cons_of_neg (by simpa using hs c rfl)

theorem rdropWhile_append_tight (hw : ∀ c ∈ w, p c = true) (hs : ∀ c ∈ s.getLast?, p c = false) :
    (s ++ w).rdropWhile p = s := by
  have hrev : (w.reverse ++ s.reverse).dropWhile p = s.reverse :=
    dropWhile_append_tight (by simpa using hw) (by rwa [List.head?_reverse])
  rw [List.rdropWhile, List.reverse_append, hrev, List.reverse_reverse]

/-- Blanks around a tight text are dropped. -/
theorem strip_eq (hw : ∀ c ∈ w, p c = true) (hw' : ∀ c ∈ w', p c = true) (hs : Tight p s) :
    strip p (w ++ s ++ w') = s := by
  by_cases hne : s = []
  · subst hne
    have hall : ∀ c ∈ w ++ w', p c = true := by
      intro c hc
      exact (List.mem_append.1 hc).elim (hw c) (hw' c)
    rw [List.append_nil, strip, List.dropWhile_eq_nil_iff.2 hall, List.rdropWhile_nil]
  · have hhead : ∀ c ∈ (s ++ w').head?, p c = false := by
      rw [List.head?_append_of_ne_nil _ hne]
      exact hs.1
    rw [strip, List.append_assoc, dropWhile_append_tight hw hhead, rdropWhile_append_tight hw' hs.2]

/-- Nothing but blanks is dropped, and what is left is tight. -/
theorem strip_spec (p : α → Bool) (s : List α) :
    ∃ w w', s = w ++ strip p s ++ w' ∧ (∀ c ∈ w, p c = true) ∧ (∀ c ∈ w', p c = true) ∧
      Tight p (strip p s) := by
  refine ⟨s.takeWhile p, (s.dropWhile p).rtakeWhile p, ?_, fun c hc => ?_, fun c hc => ?_, ?_, ?_⟩
  · rw [strip, List.append_assoc, List.rdropWhile_append_rtakeWhile,
      List.takeWhile_append_dropWhile]
  · exact List.mem_takeWhile_imp hc
  · exact List.mem_rtakeWhile_imp hc
  · intro c hc
    have hhead := List.head?_dropWhile_not p s
    obtain ⟨t, ht⟩ := List.rdropWhile_prefix p (s.dropWhile p)
    have hc' : (s.dropWhile p).head? = some c := by
      rw [← ht, List.head?_append_of_ne_nil _ (fun hnil => by simp [strip, hnil] at hc)]
      exact hc
    rw [hc'] at hhead
    exact hhead
  · intro c hc
    have hne : strip p s ≠ [] := by rintro hnil; simp [hnil] at hc
    have hlast := List.rdropWhile_last_not p (s.dropWhile p) hne
    rw [List.getLast?_eq_some_getLast hne, Option.mem_some_iff] at hc
    subst hc
    exact Bool.eq_false_iff.2 hlast

end Strip

section Split

variable {α : Type*} [DecidableEq α] {sep : α} {s a b : List α}

/-- Split at the first separator. -/
def splitOnce (sep : α) : List α → Option (List α × List α)
  | [] => none
  | c :: s => if c = sep then some ([], s) else (splitOnce sep s).map fun q => (c :: q.1, q.2)

/-- Split at the first separators, into at most `n` parts. -/
def splitn (sep : α) : ℕ → List α → List (List α)
  | 0, _ => []
  | 1, s => [s]
  | n + 2, s =>
    match splitOnce sep s with
    | none => [s]
    | some (a, b) => a :: splitn sep (n + 1) b

theorem splitOnce_append (h : sep ∉ a) : splitOnce sep (a ++ sep :: b) = some (a, b) := by
  induction a with
  | nil => simp [splitOnce]
  | cons c a ih =>
    obtain ⟨hc, ha⟩ := List.mem_cons.not.trans not_or |>.1 h
    simp [splitOnce, Ne.symm hc, ih ha]

theorem splitOnce_eq_some : splitOnce sep s = some (a, b) ↔ s = a ++ sep :: b ∧ sep ∉ a := by
  constructor
  · intro h
    induction s generalizing a with
    | nil => simp [splitOnce] at h
    | cons c s ih =>
      unfold splitOnce at h
      split_ifs at h with hc
      · obtain ⟨rfl, rfl⟩ := by simpa using h
        simp [hc]
      · obtain ⟨⟨a', b'⟩, hs, heq⟩ := Option.map_eq_some_iff.1 h
        obtain ⟨rfl, rfl⟩ := by simpa using heq
        obtain ⟨rfl, ha⟩ := ih hs
        exact ⟨rfl, by simp [Ne.symm hc, ha]⟩
  · rintro ⟨rfl, h⟩
    exact splitOnce_append h

theorem splitOnce_eq_none : splitOnce sep s = none ↔ sep ∉ s := by
  induction s with
  | nil => simp [splitOnce]
  | cons c s ih =>
    by_cases hc : c = sep
    · simp [splitOnce, hc]
    · simp [splitOnce, hc, ih, Ne.symm hc]

end Split

section Numeral

variable {s : List Char} {n max : ℕ}

/-- A text of decimal digits, with or without a plus sign, and its value. -/
def Numeral (s : List Char) (n : ℕ) : Prop :=
  ∃ digits, (s = digits ∨ s = '+' :: digits) ∧ digits ≠ [] ∧
    (∀ c ∈ digits, c.isDigit = true) ∧ Nat.ofDigitChars 10 digits 0 = n

/-- Read a decimal number that is at most `max`. -/
def parseDecimal (max : ℕ) (s : List Char) : Option ℕ :=
  let digits := if s.head? = some '+' then s.tail else s
  let n := Nat.ofDigitChars 10 digits 0
  if digits ≠ [] ∧ digits.all Char.isDigit = true ∧ n ≤ max then some n else none

theorem parseDecimal_eq_some : parseDecimal max s = some n ↔ Numeral s n ∧ n ≤ max := by
  unfold parseDecimal
  simp only [List.all_eq_true]
  constructor
  · intro h
    split_ifs at h with hplus hok hok
    · obtain ⟨hne, hdigits, hle⟩ := hok
      obtain rfl := Option.some.inj h
      refine ⟨⟨s.tail, Or.inr ?_, hne, hdigits, rfl⟩, hle⟩
      cases s with
      | nil => simp at hplus
      | cons c s => simpa using hplus
    · obtain ⟨hne, hdigits, hle⟩ := hok
      obtain rfl := Option.some.inj h
      exact ⟨⟨s, Or.inl rfl, hne, hdigits, rfl⟩, hle⟩
  · rintro ⟨⟨digits, rfl | rfl, hne, hdigits, rfl⟩, hle⟩
    · have hplus : s.head? ≠ some '+' := fun h =>
        absurd (hdigits '+' (List.mem_of_head? h)) (by decide)
      simp only [if_neg hplus]
      exact if_pos ⟨hne, hdigits, hle⟩
    · exact if_pos ⟨hne, hdigits, hle⟩

theorem Numeral.ne_nil (h : Numeral s n) : s ≠ [] := by
  obtain ⟨digits, rfl | rfl, hne, -⟩ := h
  · exact hne
  · exact List.cons_ne_nil _ _

theorem Numeral.mem (h : Numeral s n) {c : Char} (hc : c ∈ s) : c.isDigit = true ∨ c = '+' := by
  obtain ⟨digits, rfl | rfl, -, hdigits, -⟩ := h
  · exact Or.inl (hdigits c hc)
  · rcases List.mem_cons.1 hc with rfl | hc
    · exact Or.inr rfl
    · exact Or.inl (hdigits c hc)

/-- The usual way to print a number is one way to write it. -/
theorem numeral_toDigits (n : ℕ) : Numeral (Nat.toDigits 10 n) n :=
  ⟨_, Or.inl rfl, Nat.toDigits_ne_nil,
    fun _ hc => Nat.isDigit_of_mem_toDigits (by decide) (by decide) hc,
    Nat.ofDigitChars_ten_toDigits⟩

end Numeral

end Text

end SwiftLoad
