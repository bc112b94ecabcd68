import SwiftLoad.Util.Disposition

/-!
# The name of a download

`resolve` of `util/filename.rs`: the name that the server gives, or the last segment of the URL, or
one that goes by the content type.

* `resolve_usable` : every name it chooses can be created.
* `resolve_header`, `resolve_url` : from either source a name comes out as `sanitize` repairs it.
* `resolve_named_iff` : **a name arrives unharmed from a header or from a URL exactly when it is
  safe.**
-/

namespace SwiftLoad

open Text

namespace Filename

open Disposition

/-- The name for nothing. -/
def download : Name := ['d', 'o', 'w', 'n', 'l', 'o', 'a', 'd']

/-- The content types that say what a file is, with the extension of each. -/
def mimeExtensions : List (String × Name) :=
  [("application/zip", ['z', 'i', 'p']),
    ("application/pdf", ['p', 'd', 'f']),
    ("application/json", ['j', 's', 'o', 'n']),
    ("application/x-tar", ['t', 'a', 'r']),
    ("application/gzip", ['g', 'z']),
    ("application/x-gzip", ['g', 'z']),
    ("application/x-7z-compressed", ['7', 'z']),
    ("application/vnd.microsoft.portable-executable", ['e', 'x', 'e']),
    ("application/x-msdownload", ['e', 'x', 'e']),
    ("application/octet-stream", ['b', 'i', 'n']),
    ("text/plain", ['t', 'x', 't']),
    ("text/html", ['h', 't', 'm', 'l']),
    ("text/csv", ['c', 's', 'v']),
    ("image/jpeg", ['j', 'p', 'g']),
    ("image/png", ['p', 'n', 'g']),
    ("image/gif", ['g', 'i', 'f']),
    ("image/webp", ['w', 'e', 'b', 'p']),
    ("video/mp4", ['m', 'p', '4']),
    ("video/x-matroska", ['m', 'k', 'v']),
    ("audio/mpeg", ['m', 'p', '3']),
    ("audio/flac", ['f', 'l', 'a', 'c'])]

/-- `extension_for_mime`: what follows a semicolon does not count. -/
def extensionForMime (mime : Name) : Option Name :=
  mimeExtensions.lookup (String.ofList ((trim (mime.takeWhile (· != ';'))).map Char.toLower))

/-- The last of the segments that is not empty (`rfind`). -/
def rfindNonempty (segments : List Name) : Option Name := segments.reverse.find? (· ≠ [])

/-- The last segment of a path that is not empty.  `path_segments` splits what follows the first
slash. -/
def lastSegment (path : Name) : Option Name :=
  match path with
  | '/' :: rest => rfindNonempty (rest.splitOnP (· == '/'))
  | _ => none

/-- The name in the path of a URL, percent-decoded. -/
def urlName (path : Name) : Option Name :=
  (lastSegment path).map fun seg => Percent.fromUtf8Lossy (Percent.decode (Percent.utf8 seg))

/-- A name from a source, repaired; one that stands for nothing is none. -/
def named (raw : Option Name) : Option Name := (raw.map sanitize).filter (· ≠ download)

/-- The name when no source has one. -/
def nameless (contentType : Option Name) : Name :=
  match contentType.bind extensionForMime with
  | some ext => download ++ '.' :: ext
  | none => download

/-- `resolve`, with the path of the URL. -/
def resolve (disposition : Option String) (path : String) (contentType : Option String) : Name :=
  match named (disposition.bind fun cd => parseContentDisposition cd.toList) with
  | some name => name
  | none =>
    match named (urlName path.toList) with
    | some name => name
    | none => nameless (contentType.map String.toList)

/-- A name that can be created as it is. -/
structure Usable (name : Name) : Prop where
  nonempty : name ≠ []
  plain : ∀ c ∈ name, isPlain c = true
  starts : ∀ c ∈ name.head?, isWhitespace c = false
  short : utf16Len name ≤ maxStemUtf16

variable {name raw u : Name} {disposition contentType : Option String} {path : String}

theorem Safe.usable (h : Safe name) : Usable name := ⟨h.nonempty, h.plain, h.starts, h.short⟩

theorem usable_sanitize (raw : Name) : Usable (sanitize raw) :=
  ⟨(head_sanitize raw).1, plain_sanitize raw, (head_sanitize raw).2, utf16Len_sanitize raw⟩

theorem named_eq_some {source : Option Name} :
    named source = some name ↔ (∃ raw ∈ source, sanitize raw = name) ∧ name ≠ download := by
  simp [named, Option.filter_eq_some_iff]

theorem named_some (h : sanitize raw ≠ download) : named (some raw) = some (sanitize raw) :=
  named_eq_some.2 ⟨⟨raw, rfl, rfl⟩, h⟩

theorem safe_nameless (contentType : Option Name) : Safe (nameless contentType) := by
  have hall : ∀ e ∈ mimeExtensions.map Prod.snd, Safe (download ++ '.' :: e) := by decide
  unfold nameless
  cases h : contentType.bind extensionForMime with
  | none => exact safe_download
  | some ext =>
    obtain ⟨mime, -, hext⟩ := Option.bind_eq_some_iff.1 h
    obtain ⟨before, after, htable, -⟩ := List.lookup_eq_some_iff.1 hext
    have hmem : ∃ mime, (mime, ext) ∈ mimeExtensions :=
      ⟨_, htable ▸ List.mem_append_right _ List.mem_cons_self⟩
    obtain ⟨mime, hmem⟩ := hmem
    exact hall ext (List.mem_map_of_mem hmem)

theorem resolve_usable (disposition : Option String) (path : String) (contentType : Option String) :
    Usable (resolve disposition path contentType) := by
  have hnamed : ∀ {source name}, named source = some name → Usable name := fun h => by
    obtain ⟨⟨raw, -, rfl⟩, -⟩ := named_eq_some.1 h
    exact usable_sanitize raw
  unfold resolve
  cases hd : named (disposition.bind fun cd => parseContentDisposition cd.toList) with
  | some name => exact hnamed hd
  | none =>
    dsimp only
    cases hu : named (urlName path.toList) with
    | some name => exact hnamed hu
    | none => exact (safe_nameless _).usable

/-! ### A name in a URL -/

theorem rfindNonempty_append (s t : Name) :
    rfindNonempty ((s ++ '/' :: t).splitOnP (· == '/')) =
      (rfindNonempty (t.splitOnP (· == '/'))).or (rfindNonempty (s.splitOnP (· == '/'))) := by
  unfold rfindNonempty
  rw [List.splitOnP_append_cons _ _ (by decide), List.reverse_append, List.find?_append]

theorem rfindNonempty_slashes {w : Name} (hw : ∀ c ∈ w, c = '/') :
    rfindNonempty (w.splitOnP (· == '/')) = none := by
  induction w with
  | nil => rfl
  | cons c w ih =>
    obtain rfl := hw c List.mem_cons_self
    have happ := rfindNonempty_append [] w
    rw [List.nil_append, ih fun c hc => hw c (List.mem_cons_of_mem _ hc)] at happ
    exact happ

theorem lastSegment_append {pre seg w : Name} (hpre : pre = [] ∨ pre.head? = some '/')
    (hseg : '/' ∉ seg) (hne : seg ≠ []) (hw : ∀ c ∈ w, c = '/') :
    lastSegment (pre ++ '/' :: (seg ++ w)) = some seg := by
  have hone : rfindNonempty (seg.splitOnP (· == '/')) = some seg := by
    have hsplit : seg.splitOnP (· == '/') = [seg] := List.splitOnP_eq_singleton fun c hc => by
      rw [beq_eq_false_iff_ne]
      rintro rfl
      exact hseg hc
    rw [hsplit]
    simp [rfindNonempty, hne]
  have hlast : rfindNonempty ((seg ++ w).splitOnP (· == '/')) = some seg := by
    cases w with
    | nil => rw [List.append_nil, hone]
    | cons c w =>
      obtain rfl := hw c List.mem_cons_self
      rw [rfindNonempty_append, hone,
        rfindNonempty_slashes fun c hc => hw c (List.mem_cons_of_mem _ hc), Option.none_or]
  cases pre with
  | nil => exact hlast
  | cons c pre =>
    obtain rfl := Option.some.inj (hpre.resolve_left (List.cons_ne_nil _ _))
    change rfindNonempty ((pre ++ '/' :: (seg ++ w)).splitOnP (· == '/')) = some seg
    rw [rfindNonempty_append, hlast, Option.some_or]

/-- The bytes that a path may hold as they are. -/
def KeptInPath (keep : UInt8 → Bool) : Prop :=
  ∀ b, keep b = true → b.toNat < 0x80 ∧ b ≠ 0x25 ∧ Char.ofNat b.toNat ≠ '/'

theorem urlName_encode {keep : UInt8 → Bool} (hkeep : KeptInPath keep) {pre w : Name}
    (hpre : pre = [] ∨ pre.head? = some '/') (hw : ∀ c ∈ w, c = '/') (hu : u ≠ []) :
    urlName (pre ++ '/' :: (Percent.encode keep u ++ w)) = some u := by
  have hback :
      Percent.fromUtf8Lossy (Percent.decode (Percent.utf8 (Percent.encode keep u))) = u := by
    rw [Percent.decode_encode fun b hb => ⟨(hkeep b hb).1, (hkeep b hb).2.1⟩,
      Percent.fromUtf8Lossy_utf8]
  have hne : Percent.encode keep u ≠ [] := by
    intro hnil
    rw [hnil] at hback
    exact hu (by simpa [Percent.utf8, Percent.decode, Percent.fromUtf8Lossy] using hback.symm)
  have hslash : '/' ∉ Percent.encode keep u := fun hmem =>
    Percent.forall_mem_encode (P := (· ≠ '/')) (fun b hb => (hkeep b hb).2.2) (by decide)
      (by decide) u '/' hmem rfl
  unfold urlName
  rw [lastSegment_append hpre hslash hne hw, Option.map_some, hback]

/-! ### From either source -/

/-- A name that the header gives comes out repaired. -/
theorem resolve_header {cd : String} (hparse : parseContentDisposition cd.toList = some u)
    (hu : sanitize u ≠ download) : resolve (some cd) path contentType = sanitize u := by
  unfold resolve
  rw [Option.bind_some, hparse, named_some hu]

/-- A name that only the URL gives comes out repaired. -/
theorem resolve_url (hnone : ∀ cd ∈ disposition, parseContentDisposition cd.toList = none)
    (hname : urlName path.toList = some u) (hu : sanitize u ≠ download) :
    resolve disposition path contentType = sanitize u := by
  have hd : (disposition.bind fun cd => parseContentDisposition cd.toList) = none :=
    Option.bind_eq_none_iff.2 hnone
  unfold resolve
  rw [hd, hname, named_some hu]
  rfl

theorem lastComponent_of_plain (h : ∀ c ∈ u, isPlain c = true) : lastComponent u = u := by
  have hsep : ∀ c ∈ u.reverse, (!isSeparator c) = true := fun c hc => by
    have hplain := h c (List.mem_reverse.1 hc)
    simp only [isPlain, Bool.and_eq_true] at hplain
    exact hplain.1.1.1
  rw [lastComponent, List.takeWhile_eq_self_iff.2 hsep, List.reverse_reverse]

theorem sanitize_eq_self_iff : sanitize u = u ↔ Safe u := by
  constructor
  · intro h
    have hplain := plain_sanitize u
    rw [h] at hplain
    have hlast := lastComponent_of_plain hplain
    have hsafe := safe_of_sanitize (h.trans hlast.symm)
    rwa [hlast] at hsafe
  · intro h
    have hlast := lastComponent_of_plain h.plain
    rw [← hlast] at h
    exact (sanitize_of_safe h).trans hlast

/-- **Names.**  A server names a file in the `filename*` of a well-formed header, or in the last
segment of the URL when no header has a name.  Unless the repaired name is `download`, which stands
for none: whatever else the header, the URL and the content type say, the download gets this very
name exactly when it is safe, and otherwise the repaired one. -/
theorem resolve_named_iff (hu : sanitize u ≠ download) (path : String)
    (contentType : Option String) :
    (∀ (h : Header) (before after : List Param) (star : Param), h.params = before ++ star :: after →
      (∀ p ∈ before, p.NotStar) → star.key.text.map Char.toLower = filenameStarKey →
      star.value.text = utf8Charset ++ pct u →
        resolve (some (String.ofList h.text)) path contentType = sanitize u ∧
        (resolve (some (String.ofList h.text)) path contentType = u ↔ Safe u)) ∧
    ∀ (disposition : Option String) (keep : UInt8 → Bool) (pre w : Name),
      (∀ cd ∈ disposition, parseContentDisposition cd.toList = none) → KeptInPath keep →
      (pre = [] ∨ pre.head? = some '/') → (∀ c ∈ w, c = '/') →
      path = String.ofList (pre ++ '/' :: (Percent.encode keep u ++ w)) →
        resolve disposition path contentType = sanitize u ∧
        (resolve disposition path contentType = u ↔ Safe u) := by
  have hne : u ≠ [] := by
    rintro rfl
    exact hu (by decide)
  refine ⟨fun h before after star hparams hbefore hkey hvalue => ?_,
    fun disposition keep pre w hnone hkeep hpre hw hpath => ?_⟩
  · have hparse : parseContentDisposition h.text = some u := by
      obtain ⟨plain, -, hread⟩ :=
        readParams_notStar hbefore none (star.text :: after.map Param.text)
      rw [parse_header, hparams, List.map_append, List.map_cons, hread, readParams_param,
        if_pos hkey, hvalue, extValue_pct hne]
    rw [resolve_header (by rw [String.toList_ofList, hparse]) hu]
    exact ⟨rfl, sanitize_eq_self_iff⟩
  · have hname := urlName_encode hkeep hpre hw hne
    rw [resolve_url hnone (by rw [hpath, String.toList_ofList, hname]) hu]
    exact ⟨rfl, sanitize_eq_self_iff⟩

/-- An accented letter, in a header and in a URL. -/
theorem resolve_named_accent :
    resolve (some (String.ofList (Header.text ⟨attachment, noSpace, [starParam ['é']]⟩))) "/" none =
      ['é'] ∧ resolve none "/d/%C3%A9/" none = ['é'] := by
  have hkept : KeptInPath fun _ => false := nofun
  refine ⟨(((resolve_named_iff (u := ['é']) (by decide) _ none).1 _ [] [] (starParam ['é']) rfl
    (by simp) (by decide) rfl).2).2 (by decide), ?_⟩
  refine (((resolve_named_iff (u := ['é']) (by decide) _ none).2 none (fun _ => false) ['/', 'd']
    ['/'] (by simp) hkept (.inr rfl) (by simp) ?_).2).2 (by decide)
  decide

end Filename

end SwiftLoad
