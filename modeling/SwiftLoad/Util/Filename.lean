import Mathlib.Algebra.Ring.Nat

/-!
# Filenames

`util/filename.rs`, `sanitize` and `resolve_destination`, and `part_path` of `fsx/mod.rs`.  A name
is a list of characters and a path the list of its components.

* `sanitize` : turn an untrusted name into one that is safe to create.
* `resolveDestination` : join it to a directory and check that it stays inside.
* `resolveDestination_eq` : the check never fails, and the destination has the sanitized name.
-/

namespace SwiftLoad

/-- A filename. -/
abbrev Name := List Char

/-- `eq_ignore_ascii_case`. -/
def eqIgnoreAsciiCase (a b : Name) : Bool := decide (a.map Char.toLower = b.map Char.toLower)

namespace Filename

/-- Longest filename we will produce, in UTF-16 code units. -/
def maxStemUtf16 : ℕ := 200

/-- `char::is_whitespace`: the Unicode property `White_Space`. -/
def isWhitespace (c : Char) : Bool :=
  (9 ≤ c.toNat && c.toNat ≤ 13) || (0x2000 ≤ c.toNat && c.toNat ≤ 0x200A) ||
    c.toNat ∈ [0x20, 0x85, 0xA0, 0x1680, 0x2028, 0x2029, 0x202F, 0x205F, 0x3000]

/-- `char::is_control`: the Unicode category `Cc`. -/
def isControl (c : Char) : Bool := c.toNat ≤ 0x1F || (0x7F ≤ c.toNat && c.toNat ≤ 0x9F)

/-- Bidi overrides and the zero-width no-break space. -/
def isBidi (c : Char) : Bool :=
  (0x202A ≤ c.toNat && c.toNat ≤ 0x202E) || (0x2066 ≤ c.toNat && c.toNat ≤ 0x2069) ||
    c.toNat ∈ [0x200E, 0x200F, 0xFEFF]

/-- The separators of either platform. -/
def isSeparator (c : Char) : Bool := c ∈ ['/', '\\']

/-- Characters that Windows refuses in a name. -/
def isInvalid (c : Char) : Bool := c ∈ ['<', '>', ':', '"', '|', '?', '*']

/-- `str::trim_start`. -/
def trimStart (s : Name) : Name := s.dropWhile isWhitespace

/-- `trim_end_matches` of the characters that satisfy `p`. -/
def trimEndMatches (p : Char → Bool) (s : Name) : Name := (s.reverse.dropWhile p).reverse

/-- `str::trim`. -/
def trim (s : Name) : Name := trimEndMatches isWhitespace (trimStart s)

/-- The part after the last separator. -/
def lastComponent (s : Name) : Name := (s.reverse.takeWhile fun c => !isSeparator c).reverse

/-- The part before the first dot. -/
def stem (s : Name) : Name := s.takeWhile (· != '.')

/-- `rsplit_once` at the last dot. -/
def rsplitDot (s : Name) : Option (Name × Name) :=
  if '.' ∈ s then
    let ext := (s.reverse.takeWhile (· != '.')).reverse
    some (s.take (s.length - ext.length - 1), ext)
  else none

/-- `utf16_len`. -/
def utf16Len (s : Name) : ℕ := (s.map fun c => if c.toNat < 0x10000 then 1 else 2).sum

/-- `truncate_by_utf16`. -/
def truncateByUtf16 : Name → ℕ → Name
  | [], _ => []
  | c :: s, max =>
    let w := if c.toNat < 0x10000 then 1 else 2
    if max < w then [] else c :: truncateByUtf16 s (max - w)

/-- `truncate_preserving_extension`. -/
def truncatePreservingExtension (name : Name) : Name :=
  if utf16Len name ≤ maxStemUtf16 then name
  else
    match rsplitDot name with
    | some (stem, ext) =>
      -- only an extension that is short enough to be one
      if ext ≠ [] ∧ utf16Len ext ≤ 16 then
        truncateByUtf16 stem (maxStemUtf16 - (utf16Len ext + 1)) ++ '.' :: ext
      else truncateByUtf16 name maxStemUtf16
    | none => truncateByUtf16 name maxStemUtf16

/-- Windows reserved device names, in lower case. -/
def reserved : List Name :=
  [['c', 'o', 'n'], ['p', 'r', 'n'], ['a', 'u', 'x'], ['n', 'u', 'l']] ++
    (['1', '2', '3', '4', '5', '6', '7', '8', '9'].map fun d => ['c', 'o', 'm', d]) ++
    ['1', '2', '3', '4', '5', '6', '7', '8', '9'].map fun d => ['l', 'p', 't', d]

/-- Drop what must not appear in a name and replace what Windows refuses. -/
def clean (s : Name) : Name :=
  (s.filter fun c => !isControl c && !isBidi c).map fun c => if isInvalid c then '_' else c

/-- `sanitize`. -/
def sanitize (raw : Name) : Name :=
  let cleaned := clean (trim (lastComponent raw))
  -- "." and ".." are traversal, not names
  let cleaned := if cleaned.all (· == '.') then [] else cleaned
  let trimmed := trimStart (trimEndMatches (fun c => c == ' ' || c == '.') cleaned)
  let name := if trimmed = [] then ['d', 'o', 'w', 'n', 'l', 'o', 'a', 'd'] else trimmed
  -- device names are reserved with or without an extension
  let name := if (stem name).map Char.toLower ∈ reserved then '_' :: name else name
  truncatePreservingExtension name

/-- A component of a path. -/
inductive Component
  | rootDir
  | curDir
  | parentDir
  | normal (name : Name)
deriving DecidableEq

end Filename

/-- A path as its components. -/
abbrev Path := List Filename.Component

namespace Filename

/-- `FilenameError::Escapes`. -/
inductive FilenameError
  | escapes
deriving DecidableEq

/-- `Path::join` with a name that is a single component. -/
def join (dir : Path) (name : Name) : Path := dir ++ [.normal name]

/-- `PathBuf::pop`. -/
def pop (p : Path) : Path := if p.getLast? = some .rootDir then p else p.dropLast

/-- `normalize_lexically`: remove `.` and resolve `..` textually. -/
def normalizeLexically (p : Path) : Path :=
  p.foldl (fun out comp =>
    match comp with
    | .curDir => out
    | .parentDir => pop out
    | other => out ++ [other]) []

/-- `resolve_destination`: join a sanitized name onto a directory and prove that the result stays
inside it. -/
def resolveDestination (dir : Path) (filename : Name) : Except FilenameError Path :=
  let normalized := normalizeLexically (join dir (sanitize filename))
  let base := normalizeLexically dir
  if base.isPrefixOf normalized = false then .error .escapes
  else if (normalized.drop base.length).length ≠ 1 then .error .escapes
  else .ok normalized

/-- `Path::file_name`, as `download` uses it. -/
def fileName (p : Path) : Name :=
  match p.getLast? with
  | some (.normal name) => name
  | _ => []

/-- `part_path`: where the data lands until the final name is claimed. -/
def partPath (destDir : Path) (filename : Name) : Path :=
  join destDir (filename ++ ['.', 's', 'l', 'p', 'a', 'r', 't'])

theorem normalizeLexically_join (dir : Path) (name : Name) :
    normalizeLexically (join dir name) = normalizeLexically dir ++ [.normal name] := by
  simp [normalizeLexically, join]

/-- The check never fails: a sanitized name is joined as one component. -/
theorem resolveDestination_eq (dir : Path) (filename : Name) :
    resolveDestination dir filename =
      .ok (normalizeLexically dir ++ [.normal (sanitize filename)]) := by
  have hprefix : (normalizeLexically dir).isPrefixOf
      (normalizeLexically dir ++ [Component.normal (sanitize filename)]) = true :=
    List.isPrefixOf_iff_prefix.2 (List.prefix_append _ _)
  simp [resolveDestination, normalizeLexically_join, hprefix]

theorem fileName_append (dir : Path) (name : Name) :
    fileName (dir ++ [.normal name]) = name := by
  simp [fileName]

end Filename

end SwiftLoad
