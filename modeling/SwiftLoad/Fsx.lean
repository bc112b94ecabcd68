import SwiftLoad.Config

/-!
# The file layer

`fsx/mod.rs`.  A file is its length and its bytes; only the bytes below the length are ever read.
A `Disk` keeps two images of the part file: what reads see, and what survives a power loss.

* `File.put` : a positional write, `File.setLen` : cut or extend with zeros.
* `openPart` : create or open the part file and preallocate it.
* `Disk.sync` : make the visible image durable.
-/

namespace SwiftLoad

/-- The largest file size, and hence the largest end of a write, the operating system accepts. -/
def maxFileLen : ℕ := 2 ^ 63 - 1

/-- A file. -/
structure File where
  len : ℕ
  data : ℕ → UInt8

namespace File

/-- A new file. -/
def empty : File := ⟨0, fun _ => 0⟩

/-- `File::set_len`: cut the file, or extend it with zeros. -/
def setLen (n : ℕ) (f : File) : File := ⟨n, fun b => if b < f.len then f.data b else 0⟩

/-- What a read finds at a position: a hole, and what lies past the end, reads as zeros. -/
def read (f : File) (b : ℕ) : UInt8 := if b < f.len then f.data b else 0

/-- `read_at`: up to `len` bytes from `offset` on, fewer where the file ends. -/
def readAt (f : File) (offset len : ℕ) : List UInt8 :=
  (List.range (min len (f.len - offset))).map fun i => f.data (offset + i)

/-- Put bytes at an offset.  A hole left before the offset reads as zeros. -/
def put (offset : ℕ) (bytes : List UInt8) (f : File) : File :=
  if bytes = [] then f
  else
    { len := max f.len (offset + bytes.length)
      data := fun b =>
        if offset ≤ b ∧ b < offset + bytes.length then bytes.getD (b - offset) 0
        else if b < f.len then f.data b else 0 }

theorem put_len (offset : ℕ) {bytes : List UInt8} (h : bytes ≠ []) (f : File) :
    (f.put offset bytes).len = max f.len (offset + bytes.length) := by
  rw [put, if_neg h]

theorem len_le_put_len (offset : ℕ) (bytes : List UInt8) (f : File) :
    f.len ≤ (f.put offset bytes).len := by
  unfold put
  split_ifs
  · exact le_rfl
  · exact le_max_left _ _

theorem put_data_of_mem {offset : ℕ} {bytes : List UInt8} {b : ℕ} (h₁ : offset ≤ b)
    (h₂ : b < offset + bytes.length) (f : File) :
    (f.put offset bytes).data b = bytes.getD (b - offset) 0 := by
  have hne : bytes ≠ [] := by rintro rfl; simp only [List.length_nil] at h₂; omega
  rw [put, if_neg hne]
  exact if_pos ⟨h₁, h₂⟩

/-- A write leaves the other bytes of the file alone. -/
theorem put_data_of_not_mem {offset : ℕ} {bytes : List UInt8} {b : ℕ}
    (h : ¬(offset ≤ b ∧ b < offset + bytes.length)) {f : File} (hb : b < f.len) :
    (f.put offset bytes).data b = f.data b := by
  unfold put
  split_ifs
  · rfl
  · exact (if_neg h).trans (if_pos hb)

end File

/-- `open_part`: create or open the part file and extend it to the expected size.  An existing
file is never cut. -/
def openPart (existing : Option File) (total : Option ℕ) : File :=
  let file := existing.getD .empty
  match total with
  | none => file
  | some t => if file.len < t then file.setLen t else file

theorem openPart_len (existing : Option File) (total : Option ℕ) :
    (openPart existing total).len = max (existing.elim 0 File.len) (total.getD 0) := by
  have h : (existing.getD .empty).len = existing.elim 0 File.len := by cases existing <;> rfl
  cases total with
  | none => simp [openPart, h]
  | some t =>
    simp only [openPart, Option.getD_some, ← h]
    split_ifs with hlt
    · exact (max_eq_right hlt.le).symm
    · exact (max_eq_left (not_lt.1 hlt)).symm

/-- Opening an old part file leaves what it holds alone. -/
theorem openPart_data {file : File} (total : Option ℕ) {b : ℕ} (hb : b < file.len) :
    (openPart (some file) total).data b = file.data b := by
  cases total with
  | none => rfl
  | some t =>
    simp only [openPart, Option.getD_some]
    split_ifs
    · exact if_pos hb
    · rfl

/-- The part file as reads see it, and as it would be found after a power loss. -/
structure Disk where
  volatile : File
  durable : File

namespace Disk

/-- A positional write reaches the visible image only. -/
def put (offset : ℕ) (bytes : List UInt8) (d : Disk) : Disk :=
  { d with volatile := d.volatile.put offset bytes }

/-- `File::sync_data`. -/
def sync (d : Disk) : Disk := { d with durable := d.volatile }

end Disk

end SwiftLoad
