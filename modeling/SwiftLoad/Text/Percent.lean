import Mathlib.Data.List.Basic

/-!
# Percent encoding and UTF-8

The bytes of a text, and back.

* `Percent.utf8`, `Percent.fromUtf8Lossy` : UTF-8, every malformed part replaced by U+FFFD.
* `Percent.decode`, `Percent.encode` : the escapes `%XX`; some bytes are written as they are.
* `Percent.decode_encode` : what is encoded decodes to the bytes of the text.
-/

namespace SwiftLoad

namespace Percent

/-! ### UTF-8 -/

/-- The bytes of a text. -/
def utf8 (s : List Char) : List UInt8 := s.flatMap String.utf8EncodeChar

/-- A continuation byte. -/
def isContinuation (b : UInt8) : Bool := 0x80 ≤ b && b ≤ 0xBF

/-- The second byte of a character of three or four bytes, which excludes overlong forms, surrogates
and what lies past the last character. -/
def isSecond (first second : UInt8) : Bool :=
  if first = 0xE0 then 0xA0 ≤ second && second ≤ 0xBF
  else if first = 0xED then 0x80 ≤ second && second ≤ 0x9F
  else if first = 0xF0 then 0x90 ≤ second && second ≤ 0xBF
  else if first = 0xF4 then 0x80 ≤ second && second ≤ 0x8F
  else isContinuation second

/-- The number of bytes, after the first, that one replacement character stands for: those that
could still have started a character. -/
def malformedTail : List UInt8 → ℕ
  | b :: c :: rest =>
    if 0xE0 ≤ b && b ≤ 0xEF then if isSecond b c then 1 else 0
    else if 0xF0 ≤ b && b ≤ 0xF4 then
      if isSecond b c then
        match rest with
        | d :: _ => if isContinuation d then 2 else 1
        | [] => 1
      else 0
    else 0
  | _ => 0

/-- `String::from_utf8_lossy`. -/
def fromUtf8Lossy : List UInt8 → List Char
  | [] => []
  | b :: rest =>
    match (b :: rest).toByteArray.utf8DecodeChar? 0 with
    | some c => c :: fromUtf8Lossy (rest.drop (c.utf8Size - 1))
    | none => Char.ofNat 0xFFFD :: fromUtf8Lossy (rest.drop (malformedTail (b :: rest)))
termination_by bytes => bytes.length
decreasing_by all_goals simp only [List.length_drop, List.length_cons]; omega

theorem utf8_append (s t : List Char) : utf8 (s ++ t) = utf8 s ++ utf8 t := List.flatMap_append

/-- A text survives the way to bytes and back. -/
theorem fromUtf8Lossy_utf8 (s : List Char) : fromUtf8Lossy (utf8 s) = s := by
  induction s with
  | nil => simp [utf8, fromUtf8Lossy]
  | cons c s ih =>
    have hlen := String.length_utf8EncodeChar c
    have hpos := c.utf8Size_pos
    have hdec :=
      ByteArray.utf8DecodeChar?_utf8EncodeChar_append (b := (utf8 s).toByteArray) (c := c)
    rw [← List.toByteArray_append] at hdec
    change fromUtf8Lossy (String.utf8EncodeChar c ++ utf8 s) = c :: s
    cases henc : String.utf8EncodeChar c with
    | nil =>
      rw [henc, List.length_nil] at hlen
      omega
    | cons b rest =>
      rw [henc] at hlen hdec
      rw [List.cons_append] at hdec ⊢
      have hdrop : (rest ++ utf8 s).drop (c.utf8Size - 1) = utf8 s := by
        have : c.utf8Size - 1 = rest.length := by simp at hlen; omega
        rw [this, List.drop_left]
      rw [fromUtf8Lossy, hdec]
      simp only [hdrop, ih]

/-! ### Escapes -/

/-- The value of a hexadecimal digit. -/
def hexValue (b : UInt8) : Option UInt8 :=
  if 0x30 ≤ b && b ≤ 0x39 then some (b - 0x30)
  else if 0x41 ≤ b && b ≤ 0x46 then some (b - 0x37)
  else if 0x61 ≤ b && b ≤ 0x66 then some (b - 0x57)
  else none

/-- `percent_decode`: a percent sign with two hexadecimal digits is the byte they denote; any other
byte stands for itself. -/
def decode : List UInt8 → List UInt8
  | b :: h :: l :: rest =>
    match if b = 0x25 then (hexValue h).bind fun x => (hexValue l).map fun y => 16 * x + y
      else none with
    | some x => x :: decode rest
    | none => b :: decode (h :: l :: rest)
  | b :: rest => b :: decode rest
  | [] => []

/-- A hexadecimal digit, in upper case. -/
def hexDigit (n : ℕ) : Char := Char.ofNat (if n < 10 then 0x30 + n else 0x37 + n)

/-- One byte, escaped unless it satisfies `keep`. -/
def encodeByte (keep : UInt8 → Bool) (b : UInt8) : List Char :=
  if keep b then [Char.ofNat b.toNat]
  else ['%', hexDigit (b.toNat / 16), hexDigit (b.toNat % 16)]

/-- The bytes of a text, escaped unless they satisfy `keep`. -/
def encode (keep : UInt8 → Bool) (s : List Char) : List Char :=
  (utf8 s).flatMap (encodeByte keep)

variable {keep : UInt8 → Bool} {n : ℕ} {b : UInt8}

theorem utf8_hexDigit (h : n < 16) :
    ∃ d, utf8 [hexDigit n] = [d] ∧ hexValue d = some (UInt8.ofNat n) := by
  refine ⟨UInt8.ofNat (hexDigit n).toNat, ?_, ?_⟩
  all_goals
    revert n
    decide

/-- An ASCII character is its own byte. -/
theorem utf8_ascii (h : n < 0x80) : utf8 [Char.ofNat n] = [UInt8.ofNat n] := by
  revert n
  decide

theorem decode_cons (h : b ≠ 0x25) (rest : List UInt8) : decode (b :: rest) = b :: decode rest := by
  match rest with
  | [] => rfl
  | [_] => rfl
  | _ :: _ :: _ => simp [decode, h]

theorem decode_encodeByte (hkeep : keep b = true → b.toNat < 0x80 ∧ b ≠ 0x25)
    (rest : List UInt8) : decode (utf8 (encodeByte keep b) ++ rest) = b :: decode rest := by
  unfold encodeByte
  split_ifs with hb
  · obtain ⟨hascii, hpercent⟩ := hkeep hb
    rw [utf8_ascii hascii, UInt8.ofNat_toNat]
    exact decode_cons hpercent rest
  · have hlt := b.toNat_lt
    obtain ⟨h, hh, hhv⟩ := utf8_hexDigit (n := b.toNat / 16) (by omega)
    obtain ⟨l, hl, hlv⟩ := utf8_hexDigit (n := b.toNat % 16) (by omega)
    have hbytes : utf8 ['%', hexDigit (b.toNat / 16), hexDigit (b.toNat % 16)] = [0x25, h, l] := by
      rw [show ['%', hexDigit (b.toNat / 16), hexDigit (b.toNat % 16)] =
        ['%'] ++ ([hexDigit (b.toNat / 16)] ++ [hexDigit (b.toNat % 16)]) from rfl,
        utf8_append, utf8_append, hh, hl]
      rfl
    have hvalue : 16 * UInt8.ofNat (b.toNat / 16) + UInt8.ofNat (b.toNat % 16) = b := by
      apply UInt8.toNat_inj.1
      simp only [UInt8.toNat_add, UInt8.toNat_mul, UInt8.toNat_ofNat', UInt8.reduceToNat]
      omega
    rw [hbytes]
    simp [decode, hhv, hlv, hvalue]

/-- What is encoded decodes to the bytes of the text. -/
theorem decode_encode (hkeep : ∀ b, keep b = true → b.toNat < 0x80 ∧ b ≠ 0x25) (s : List Char) :
    decode (utf8 (encode keep s)) = utf8 s := by
  unfold encode
  induction utf8 s with
  | nil => rfl
  | cons b bytes ih => rw [List.flatMap_cons, utf8_append, decode_encodeByte (hkeep b), ih]

/-- The characters of an encoded text are kept ones, percent signs and digits. -/
theorem forall_mem_encode {P : Char → Prop} (hkeep : ∀ b, keep b = true → P (Char.ofNat b.toNat))
    (hpercent : P '%') (hdigit : ∀ n < 16, P (hexDigit n)) (s : List Char) :
    ∀ c ∈ encode keep s, P c := by
  intro c hc
  obtain ⟨b, -, hcb⟩ := List.mem_flatMap.1 hc
  have hlt := b.toNat_lt
  unfold encodeByte at hcb
  split_ifs at hcb with hb
  · rw [List.mem_singleton.1 hcb]
    exact hkeep b hb
  · simp only [List.mem_cons, List.not_mem_nil, or_false] at hcb
    rcases hcb with rfl | rfl | rfl
    · exact hpercent
    · exact hdigit _ (by omega)
    · exact hdigit _ (by omega)

end Percent

end SwiftLoad
