import SwiftLoad.Text.Basic
import SwiftLoad.Text.Percent
import SwiftLoad.Util.SafeName

/-!
# `Content-Disposition`

`parse_content_disposition` and `split_header_params` of `util/filename.rs`, on headers built from a
disposition type and well-formed parameters (`Param`).

* `splitHeaderParams_eq` : the splitter is back outside quotes after every parameter, so that the
  parts are the parameters.
* `filenameStar_wins` : the text of `filename*` is the result, whatever surrounds it.
* `quoted_filename_iff` : which quoted names are parsed back.

The splitter keeps track of escapes.  What takes the quotes off afterwards does not: it trims every
`"` at either end and replaces `\"` by `"`, so that a backslash stays doubled, and a name that ends
with `"` loses it.
-/

namespace SwiftLoad

open Text

namespace Disposition

open Filename

/-! ### The parser -/

/-- The variables of `split_header_params`. -/
structure Splitter where
  parts : List Name := []
  cur : Name := []
  inQuotes : Bool := false
  escaped : Bool := false

/-- The loop body of `split_header_params`. -/
def Splitter.push (s : Splitter) (c : Char) : Splitter :=
  if c = '\\' ∧ s.inQuotes = true ∧ s.escaped = false then
    { s with escaped := true, cur := s.cur ++ [c] }
  else if c = '"' ∧ s.escaped = false then
    { s with inQuotes := !s.inQuotes, cur := s.cur ++ [c] }
  else if c = ';' ∧ s.inQuotes = false then
    { s with parts := s.parts ++ [s.cur], cur := [] }
  else { s with escaped := false, cur := s.cur ++ [c] }

/-- `split_header_params`. -/
def splitHeaderParams (header : Name) : List Name :=
  let s := header.foldl Splitter.push {}
  s.parts ++ [s.cur]

/-- `replace("\\\"", "\"")`. -/
def unescapeQuotes : Name → Name
  | '\\' :: '"' :: s => '"' :: unescapeQuotes s
  | c :: s => c :: unescapeQuotes s
  | [] => []

/-- The text of a `filename*` parameter: charset, language and percent-encoded value. -/
def extValue (value : Name) : Option Name :=
  match splitn '\'' 3 value with
  | [charset, _, encoded] =>
    let decoded := Percent.decode (Percent.utf8 encoded)
    let s := if eqIgnoreAsciiCase charset ['u', 't', 'f', '-', '8'] ∨ charset = [] then
        Percent.fromUtf8Lossy decoded
      else decoded.map fun b => Char.ofNat b.toNat
    if s = [] then none else some s
  | _ => none

/-- The text of a `filename` parameter. -/
def plainValue (value : Name) : Option Name :=
  let unquoted := strip (· == '"') value
  if unquoted = [] then none else some (unescapeQuotes unquoted)

/-- The keys of the two parameters. -/
def filenameKey : Name := ['f', 'i', 'l', 'e', 'n', 'a', 'm', 'e']
def filenameStarKey : Name := filenameKey ++ ['*']

/-- The loop of `parse_content_disposition` over the parts, with the plain name found so far. -/
def readParams : Option Name → List Name → Option Name
  | plain, [] => plain
  | plain, part :: parts =>
    match splitOnce '=' part with
    | none => readParams plain parts
    | some (key, value) =>
      let key := (trim key).map Char.toLower
      let value := trim value
      if key = filenameStarKey then
        match extValue value with
        | some s => some s
        | none => readParams plain parts
      else if key = filenameKey ∧ plain = none then readParams (plainValue value) parts
      else readParams plain parts

/-- `parse_content_disposition`. -/
def parseContentDisposition (header : Name) : Option Name :=
  readParams none (splitHeaderParams header)

/-! ### Well-formed headers -/

/-- The characters of a token. -/
def isTokenChar (c : Char) : Bool :=
  c.isAlphanum || c ∈ ['!', '#', '$', '%', '&', '\'', '*', '+', '-', '.', '^', '_', '|', '~'] ||
    c.toNat = 0x60

/-- A token. -/
structure Token where
  text : Name
  token : text.all isTokenChar = true

theorem Token.isTokenChar (t : Token) {c : Char} (hc : c ∈ t.text) : isTokenChar c = true :=
  List.all_eq_true.1 t.token c hc

/-- Optional whitespace. -/
structure Space where
  text : Name
  space : ∀ c ∈ text, c = ' ' ∨ c = '\t'

/-- What a quoted string consists of. -/
inductive QuotedItem
  /-- A character that stands for itself. -/
  | char (c : Char) (hquote : c ≠ '"') (hslash : c ≠ '\\')
  /-- A backslash and a character. -/
  | pair (c : Char)

/-- How an item is written. -/
def QuotedItem.text : QuotedItem → Name
  | .char c _ _ => [c]
  | .pair c => ['\\', c]

/-- The value of a parameter. -/
inductive Value
  | token (t : Token)
  | quoted (items : List QuotedItem)

/-- How a value is written. -/
def Value.text : Value → Name
  | .token t => t.text
  | .quoted items => '"' :: (items.flatMap QuotedItem.text ++ ['"'])

/-- A parameter, with the blanks around its parts. -/
structure Param where
  before : Space
  key : Token
  beforeEq : Space
  afterEq : Space
  value : Value
  after : Space

/-- How a parameter is written. -/
def Param.text (p : Param) : Name :=
  (p.before.text ++ (p.key.text ++ p.beforeEq.text)) ++
    '=' :: (p.afterEq.text ++ (p.value.text ++ p.after.text))

/-- The key is not `filename*`, in whatever case. -/
def Param.NotStar (p : Param) : Prop := p.key.text.map Char.toLower ≠ filenameStarKey

/-- A semicolon before each part. -/
def follow (parts : List Name) : Name := parts.flatMap fun part => ';' :: part

/-! ### The splitter -/

variable {s t : Name} {st : Splitter} {parts : List Name}

/-- The splitter with a text added to the part it is reading. -/
def Splitter.add (st : Splitter) (t : Name) : Splitter := { st with cur := st.cur ++ t }

@[simp] theorem Splitter.add_inQuotes (st : Splitter) (t : Name) :
    (st.add t).inQuotes = st.inQuotes := rfl

@[simp] theorem Splitter.add_escaped (st : Splitter) (t : Name) :
    (st.add t).escaped = st.escaped := rfl

@[simp] theorem Splitter.add_nil (st : Splitter) : st.add [] = st := by simp [Splitter.add]

@[simp] theorem Splitter.add_add (st : Splitter) (s t : Name) :
    (st.add s).add t = st.add (s ++ t) := by simp [Splitter.add]

/-- Read from outside quotes, the text ends outside quotes and contains no separator. -/
def Closed (t : Name) : Prop :=
  ∀ st : Splitter, st.inQuotes = false → st.escaped = false →
    t.foldl Splitter.push st = st.add t

theorem Closed.append (hs : Closed s) (ht : Closed t) : Closed (s ++ t) := by
  intro st hq he
  rw [List.foldl_append, hs st hq he, ht (st.add s) hq he, Splitter.add_add]

theorem closed_of_forall (h : ∀ c ∈ t, c ≠ '"' ∧ c ≠ ';') : Closed t := by
  induction t with
  | nil => intro st _ _; simp
  | cons c t ih =>
    obtain ⟨⟨hquote, hsemi⟩, ht⟩ := List.forall_mem_cons.1 h
    intro st hq he
    have hpush : st.push c = st.add [c] := by
      simp [Splitter.push, Splitter.add, hquote, hsemi, hq, he]
    rw [List.foldl_cons, hpush, ih ht (st.add [c]) hq he, Splitter.add_add]
    rfl

/-- Inside quotes, an item of a quoted string leaves the flags as they are. -/
theorem foldl_items (items : List QuotedItem) (st : Splitter) (hq : st.inQuotes = true)
    (he : st.escaped = false) :
    (items.flatMap QuotedItem.text).foldl Splitter.push st =
      st.add (items.flatMap QuotedItem.text) := by
  induction items generalizing st with
  | nil => simp
  | cons item items ih =>
    have hitem : item.text.foldl Splitter.push st = st.add item.text := by
      cases item with
      | char c hquote hslash =>
        simp [QuotedItem.text, Splitter.push, Splitter.add, hquote, hslash, hq, he]
      | pair c =>
        -- the escape ends with the character after the backslash, whichever it is
        have hslash : st.push '\\' = { st.add ['\\'] with escaped := true } := by
          simp [Splitter.push, Splitter.add, hq, he]
        rw [QuotedItem.text, List.foldl_cons, hslash]
        simp [Splitter.push, Splitter.add, hq, he]
    rw [List.flatMap_cons, List.foldl_append, hitem, ih (st.add item.text) hq he,
      Splitter.add_add]

theorem closed_quoted (items : List QuotedItem) :
    Closed ('"' :: (items.flatMap QuotedItem.text ++ ['"'])) := by
  intro st hq he
  have hopen : st.push '"' = { st.add ['"'] with inQuotes := true } := by
    simp [Splitter.push, Splitter.add, hq, he]
  rw [List.foldl_cons, hopen, List.foldl_append,
    foldl_items items { st.add ['"'] with inQuotes := true } rfl he]
  simp [Splitter.push, Splitter.add, he, hq]

theorem foldl_follow (h : ∀ part ∈ parts, Closed part) (st : Splitter) (hq : st.inQuotes = false)
    (he : st.escaped = false) :
    ((follow parts).foldl Splitter.push st).parts ++ [((follow parts).foldl Splitter.push st).cur] =
      st.parts ++ st.cur :: parts := by
  induction parts generalizing st with
  | nil => simp [follow]
  | cons part parts ih =>
    obtain ⟨hpart, hparts⟩ := List.forall_mem_cons.1 h
    have hsemi : st.push ';' = { st with parts := st.parts ++ [st.cur], cur := [] } := by
      simp [Splitter.push, hq]
    have hread : (';' :: part).foldl Splitter.push st =
        { st with parts := st.parts ++ [st.cur], cur := part } := by
      rw [List.foldl_cons, hsemi, hpart { st with parts := st.parts ++ [st.cur], cur := [] } hq he]
      simp [Splitter.add]
    rw [follow, List.flatMap_cons, List.foldl_append, hread]
    have hrest := ih hparts { st with parts := st.parts ++ [st.cur], cur := part } hq he
    simpa [follow] using hrest

theorem splitHeaderParams_eq {ty : Name} (hty : Closed ty) (h : ∀ part ∈ parts, Closed part) :
    splitHeaderParams (ty ++ follow parts) = ty :: parts := by
  have hread : ty.foldl Splitter.push {} = Splitter.add {} ty := hty _ rfl rfl
  unfold splitHeaderParams
  rw [List.foldl_append, hread]
  exact foldl_follow h (Splitter.add {} ty) rfl rfl

/-! ### Parameters -/

variable {plain : Option Name} {rest : List Name} {p : Param}

theorem toNat_of_isTokenChar {c : Char} (h : isTokenChar c = true) :
    0x21 ≤ c.toNat ∧ c.toNat ≤ 0x7E := by
  unfold isTokenChar Char.isAlphanum Char.isAlpha Char.isUpper Char.isLower Char.isDigit at h
  simp only [Bool.or_eq_true, Bool.and_eq_true, decide_eq_true_eq, ge_iff_le,
    UInt32.le_iff_toNat_le, List.mem_cons, List.not_mem_nil, or_false] at h
  change (((65 ≤ c.toNat ∧ c.toNat ≤ 90 ∨ 97 ≤ c.toNat ∧ c.toNat ≤ 122) ∨
    48 ≤ c.toNat ∧ c.toNat ≤ 57) ∨ _) ∨ _ at h
  rcases h with (h | h) | h
  · omega
  · rcases h with rfl | rfl | rfl | rfl | rfl | rfl | rfl | rfl | rfl | rfl | rfl | rfl | rfl | rfl
    all_goals decide
  · omega

theorem ne_of_isTokenChar {c : Char} (h : isTokenChar c = true) :
    c ≠ '"' ∧ c ≠ ';' ∧ c ≠ '=' ∧ isWhitespace c = false := by
  have hrange := toNat_of_isTokenChar h
  refine ⟨?_, ?_, ?_, ?_⟩
  · rintro rfl
    exact absurd h (by decide)
  · rintro rfl
    exact absurd h (by decide)
  · rintro rfl
    exact absurd h (by decide)
  · simp only [isWhitespace, Bool.or_eq_false_iff, Bool.and_eq_false_iff, decide_eq_false_iff_not,
      List.mem_cons, List.not_mem_nil, or_false]
    omega

theorem isWhitespace_space (w : Space) : ∀ c ∈ w.text, isWhitespace c = true := by
  intro c hc
  rcases w.space c hc with rfl | rfl
  all_goals decide

theorem closed_space (w : Space) : Closed w.text := by
  refine closed_of_forall fun c hc => ?_
  rcases w.space c hc with rfl | rfl
  all_goals decide

theorem closed_token (t : Token) : Closed t.text :=
  closed_of_forall fun _ hc =>
    ⟨(ne_of_isTokenChar (t.isTokenChar hc)).1, (ne_of_isTokenChar (t.isTokenChar hc)).2.1⟩

/-- The splitter is outside quotes again after a parameter. -/
theorem closed_param (p : Param) : Closed p.text := by
  have hvalue : Closed p.value.text := by
    cases p.value with
    | token t => exact closed_token t
    | quoted items => exact closed_quoted items
  have heq : Closed ['='] := closed_of_forall (by simp)
  exact ((closed_space _).append ((closed_token _).append (closed_space _))).append
    (heq.append ((closed_space _).append (hvalue.append (closed_space _))))

theorem trim_token (w w' : Space) (t : Token) : trim (w.text ++ (t.text ++ w'.text)) = t.text := by
  rw [← List.append_assoc]
  exact strip_eq (isWhitespace_space w) (isWhitespace_space w')
    (tight_of_forall fun c hc => (ne_of_isTokenChar (t.isTokenChar hc)).2.2.2)

theorem trim_value (w w' : Space) (v : Value) : trim (w.text ++ (v.text ++ w'.text)) = v.text := by
  cases v with
  | token t => exact trim_token w w' t
  | quoted items =>
    rw [← List.append_assoc]
    refine strip_eq (isWhitespace_space w) (isWhitespace_space w') ⟨?_, ?_⟩
    · simp only [Value.text, List.head?_cons, Option.mem_some_iff, forall_eq']
      decide
    · rw [Value.text, ← List.cons_append, List.getLast?_concat]
      simp only [Option.mem_some_iff, forall_eq']
      decide

theorem splitOnce_param (p : Param) : splitOnce '=' p.text =
    some (p.before.text ++ (p.key.text ++ p.beforeEq.text),
      p.afterEq.text ++ (p.value.text ++ p.after.text)) := by
  have hspace : ∀ w : Space, '=' ∉ w.text := by
    intro w hmem
    rcases w.space _ hmem with h | h
    all_goals exact absurd h (by decide)
  have hkey : '=' ∉ p.key.text := fun hmem => (ne_of_isTokenChar (p.key.isTokenChar hmem)).2.2.1 rfl
  exact splitOnce_append (by simp [hspace, hkey])

theorem readParams_param (plain : Option Name) (p : Param) (rest : List Name) :
    readParams plain (p.text :: rest) =
      if p.key.text.map Char.toLower = filenameStarKey then
        match extValue p.value.text with
        | some s => some s
        | none => readParams plain rest
      else if p.key.text.map Char.toLower = filenameKey ∧ plain = none then
        readParams (plainValue p.value.text) rest
      else readParams plain rest := by
  simp only [readParams, splitOnce_param, trim_token, trim_value]

/-- Parameters other than `filename*` do not end the loop, and a plain name that was found stays. -/
theorem readParams_notStar {ps : List Param} (hps : ∀ p ∈ ps, p.NotStar) (plain : Option Name)
    (rest : List Name) :
    ∃ plain', (∀ x, plain = some x → plain' = some x) ∧
      readParams plain (ps.map Param.text ++ rest) = readParams plain' rest := by
  induction ps generalizing plain with
  | nil => exact ⟨plain, fun _ h => h, rfl⟩
  | cons p ps ih =>
    obtain ⟨hp, hps⟩ := List.forall_mem_cons.1 hps
    rw [List.map_cons, List.cons_append, readParams_param, if_neg hp]
    split_ifs with hplain
    · obtain ⟨plain', -, hread⟩ := ih hps (plainValue p.value.text)
      exact ⟨plain', fun x hx => by simp [hx] at hplain, hread⟩
    · exact ih hps plain

/-- The disposition type has no equals sign and is skipped. -/
theorem readParams_type (plain : Option Name) (ty : Token) (w : Space) (rest : List Name) :
    readParams plain ((ty.text ++ w.text) :: rest) = readParams plain rest := by
  have hnone : splitOnce '=' (ty.text ++ w.text) = none := by
    rw [splitOnce_eq_none, List.mem_append, not_or]
    refine ⟨fun hmem => (ne_of_isTokenChar (ty.isTokenChar hmem)).2.2.1 rfl, fun hmem => ?_⟩
    rcases w.space _ hmem with h | h
    all_goals exact absurd h (by decide)
  simp only [readParams, hnone]

/-- A header: a type and parameters. -/
structure Header where
  kind : Token
  after : Space
  params : List Param

/-- How a header is written. -/
def Header.text (h : Header) : Name :=
  (h.kind.text ++ h.after.text) ++ follow (h.params.map Param.text)

theorem parse_header (h : Header) :
    parseContentDisposition h.text = readParams none (h.params.map Param.text) := by
  have hparts : ∀ part ∈ h.params.map Param.text, Closed part := by
    intro part hpart
    obtain ⟨p, -, rfl⟩ := List.mem_map.1 hpart
    exact closed_param p
  rw [parseContentDisposition, Header.text,
    splitHeaderParams_eq ((closed_token _).append (closed_space _)) hparts, readParams_type]

/-! ### The extended name -/

/-- The characters that an extended value need not escape. -/
def isAttrChar (c : Char) : Bool :=
  c.isAlphanum || c ∈ ['!', '#', '$', '&', '+', '-', '.', '^', '_', '|', '~'] || c.toNat = 0x60

/-- `pct`: the bytes of the text, escaped unless they are such characters. -/
def pct (s : Name) : Name :=
  Percent.encode (fun b => decide (b.toNat < 0x80) && isAttrChar (Char.ofNat b.toNat)) s

theorem isTokenChar_of_isAttrChar {c : Char} (h : isAttrChar c = true) :
    isTokenChar c = true ∧ c ≠ '\'' := by
  refine ⟨?_, ?_⟩
  · simp only [isAttrChar, isTokenChar, Bool.or_eq_true, decide_eq_true_eq, List.mem_cons] at h ⊢
    tauto
  · rintro rfl
    exact absurd h (by decide)

theorem decode_pct (s : Name) :
    Percent.fromUtf8Lossy (Percent.decode (Percent.utf8 (pct s))) = s := by
  rw [pct, Percent.decode_encode, Percent.fromUtf8Lossy_utf8]
  intro b hb
  obtain ⟨hascii, hattr⟩ := Bool.and_eq_true_iff.1 hb
  refine ⟨of_decide_eq_true hascii, ?_⟩
  rintro rfl
  exact absurd hattr (by decide)

theorem forall_mem_pct (s : Name) : ∀ c ∈ pct s, isTokenChar c = true ∧ c ≠ '\'' := by
  refine Percent.forall_mem_encode (fun b hb => ?_) (by decide) (by decide) s
  exact isTokenChar_of_isAttrChar (Bool.and_eq_true_iff.1 hb).2

/-- The prefix of an extended value in UTF-8 without a language. -/
def utf8Charset : Name := ['U', 'T', 'F', '-', '8', '\'', '\'']

theorem extValue_pct {u : Name} (hu : u ≠ []) : extValue (utf8Charset ++ pct u) = some u := by
  have hcharset : splitOnce '\'' (utf8Charset ++ pct u) =
      some (['U', 'T', 'F', '-', '8'], '\'' :: pct u) := by
    exact splitOnce_append (a := ['U', 'T', 'F', '-', '8']) (by simp)
  have hlang : splitOnce '\'' ('\'' :: pct u) = some ([], pct u) :=
    splitOnce_append (a := []) (by simp)
  have hutf8 : eqIgnoreAsciiCase ['U', 'T', 'F', '-', '8'] ['u', 't', 'f', '-', '8'] = true := by
    decide
  simp [extValue, splitn, hcharset, hlang, hutf8, decode_pct, hu]

/-- **`filename*` wins.**  In a well-formed header with an extended name in UTF-8, and without
another before it, the result is that name, whatever the other parameters are and wherever a plain
name stands. -/
theorem filenameStar_wins (h : Header) (before after : List Param) (star : Param)
    (hparams : h.params = before ++ star :: after) (hbefore : ∀ p ∈ before, p.NotStar) {u : Name}
    (hu : u ≠ []) (hkey : star.key.text.map Char.toLower = filenameStarKey)
    (hvalue : star.value.text = utf8Charset ++ pct u) :
    parseContentDisposition h.text = some u := by
  obtain ⟨plain, -, hread⟩ := readParams_notStar hbefore none (star.text :: after.map Param.text)
  rw [parse_header, hparams, List.map_append, List.map_cons, hread, readParams_param, if_pos hkey,
    hvalue, extValue_pct hu]

/-- No blanks. -/
def noSpace : Space := ⟨[], by simp⟩

/-- One blank. -/
def oneSpace : Space := ⟨[' '], by simp⟩

/-- `attachment`. -/
def attachment : Token := ⟨['a', 't', 't', 'a', 'c', 'h', 'm', 'e', 'n', 't'], by decide⟩

/-- `filename*=UTF-8''pct(u)`. -/
def starParam (u : Name) : Param where
  before := oneSpace
  key := ⟨filenameStarKey, by decide⟩
  beforeEq := noSpace
  afterEq := noSpace
  value := .token ⟨utf8Charset ++ pct u, by
    rw [List.all_append, Bool.and_eq_true]
    exact ⟨by decide, List.all_eq_true.2 fun c hc => (forall_mem_pct u c hc).1⟩⟩
  after := noSpace

/-- A quoted plain name that looks like an extended one stands before it. -/
theorem filenameStar_wins_quoted :
    parseContentDisposition (Header.text ⟨attachment, noSpace,
      [⟨oneSpace, ⟨filenameKey, by decide⟩, noSpace, noSpace,
        .quoted [.char ';' (by decide) (by decide), .pair '"'], noSpace⟩, starParam ['é']]⟩) =
      some ['é'] := by
  refine filenameStar_wins _ [_] [] _ rfl ?_ (by decide) (by decide) rfl
  rw [List.forall_mem_singleton, Param.NotStar]
  decide

/-! ### Quoted names -/

/-- `q`: a backslash before every backslash and every quote. -/
def escape (s : Name) : Name := s.flatMap fun c => if c = '\\' ∨ c = '"' then ['\\', c] else [c]

/-- The items of a quoted string that stands for a text. -/
def quote (s : Name) : List QuotedItem :=
  s.map fun c => if h : c ≠ '"' ∧ c ≠ '\\' then .char c h.1 h.2 else .pair c

theorem escape_cons (c : Char) (s : Name) :
    escape (c :: s) = (if c = '\\' ∨ c = '"' then ['\\', c] else [c]) ++ escape s := rfl

theorem text_quote (s : Name) : (quote s).flatMap QuotedItem.text = escape s := by
  induction s with
  | nil => rfl
  | cons c s ih =>
    rw [quote, List.map_cons, List.flatMap_cons, ← quote, ih, escape_cons]
    by_cases hc : c ≠ '"' ∧ c ≠ '\\'
    · simp [hc, QuotedItem.text]
    · have : c = '\\' ∨ c = '"' := by tauto
      simp [hc, this, QuotedItem.text]

/-- What `unescapeQuotes` leaves of an escaped text: its backslashes doubled. -/
def double (s : Name) : Name := s.flatMap fun c => if c = '\\' then ['\\', '\\'] else [c]

theorem double_cons (c : Char) (s : Name) :
    double (c :: s) = (if c = '\\' then ['\\', '\\'] else [c]) ++ double s := rfl

theorem head?_escape (s : Name) : (escape s).head? ≠ some '"' := by
  cases s with
  | nil => simp [escape]
  | cons c s =>
    rw [escape_cons]
    split_ifs with hc
    · simp
    · simp only [List.singleton_append, List.head?_cons, ne_eq, Option.some.injEq]
      tauto

theorem unescapeQuotes_cons {c : Char} {s : Name} (h : c ≠ '\\' ∨ s.head? ≠ some '"') :
    unescapeQuotes (c :: s) = c :: unescapeQuotes s := by
  rw [unescapeQuotes.eq_2]
  rintro s' rfl rfl
  simp at h

theorem unescapeQuotes_escape (s t : Name) (ht : t.head? ≠ some '"') :
    unescapeQuotes (escape s ++ t) = double s ++ unescapeQuotes t := by
  induction s with
  | nil => rfl
  | cons c s ih =>
    have hhead : (escape s ++ t).head? ≠ some '"' := by
      rw [List.head?_append]
      cases hs : (escape s).head? with
      | none => simpa using ht
      | some c => simpa [hs] using head?_escape s
    rw [escape_cons, double_cons]
    by_cases hslash : c = '\\'
    · subst hslash
      simp only [true_or, if_true, List.cons_append, List.nil_append]
      rw [unescapeQuotes_cons (Or.inr (by simp)), unescapeQuotes_cons (Or.inr hhead), ih]
    · by_cases hquote : c = '"'
      · subst hquote
        simp [unescapeQuotes, ih]
      · simp only [hslash, hquote, or_self, if_false, List.cons_append, List.nil_append]
        rw [unescapeQuotes_cons (Or.inl hslash), ih]

theorem double_of_notMem {s : Name} (h : '\\' ∉ s) : double s = s := by
  induction s with
  | nil => rfl
  | cons c s ih =>
    obtain ⟨hc, hs⟩ := not_or.1 (List.mem_cons.not.1 h)
    rw [double_cons, ih hs, if_neg (Ne.symm hc)]
    rfl

theorem length_double (s : Name) : (double s).length = s.length + s.count '\\' := by
  induction s with
  | nil => rfl
  | cons c s ih =>
    rw [double_cons, List.length_append, ih, List.count_cons]
    by_cases hc : c = '\\'
    · simp [hc]; omega
    · simp [hc]; omega

theorem head?_escape_append (s t : Name) (ht : t.head? ≠ some '"') :
    (escape s ++ t).head? ≠ some '"' := by
  rw [List.head?_append]
  cases hs : (escape s).head? with
  | none => simpa using ht
  | some c => simpa [hs] using head?_escape s

/-- Taking the quotes off a quoted string: the last quote of a name is taken for one of them. -/
theorem plainValue_quote (s : Name) :
    plainValue ('"' :: (escape (s ++ ['"']) ++ ['"'])) = some (double s ++ ['\\']) := by
  have hstrip : strip (· == '"') ('"' :: (escape (s ++ ['"']) ++ ['"'])) = escape s ++ ['\\'] := by
    have htight : Tight (· == '"') (escape s ++ ['\\']) := by
      refine ⟨fun c hc => ?_, by simp⟩
      have hne := head?_escape_append s ['\\'] (by simp)
      rw [Option.mem_def.1 hc] at hne
      simpa using hne
    have hone : ∀ c ∈ ['"'], (c == '"') = true := by simp
    have htwo : ∀ c ∈ ['"', '"'], (c == '"') = true := by simp
    simpa [escape] using strip_eq hone htwo htight
  rw [plainValue, hstrip, if_neg (by simp), unescapeQuotes_escape s ['\\'] (by simp)]
  rfl

theorem plainValue_concat (s : Name) {c : Char} (hc : c ≠ '"') :
    plainValue ('"' :: (escape (s ++ [c]) ++ ['"'])) = some (double (s ++ [c])) := by
  have hlast : (escape (s ++ [c])).getLast? = some c := by
    rw [escape, List.flatMap_append, List.flatMap_singleton]
    split_ifs
    · simp
    · simp
  have hstrip : strip (· == '"') ('"' :: (escape (s ++ [c]) ++ ['"'])) = escape (s ++ [c]) := by
    have htight : Tight (· == '"') (escape (s ++ [c])) := by
      refine ⟨fun d hd => ?_, fun d hd => ?_⟩
      · have hne := head?_escape (s ++ [c])
        rw [Option.mem_def.1 hd] at hne
        simpa using hne
      · rw [hlast, Option.mem_some_iff] at hd
        subst hd
        simpa using hc
    have hone : ∀ c ∈ ['"'], (c == '"') = true := by simp
    simpa using strip_eq hone hone htight
  have hne : escape (s ++ [c]) ≠ [] := by
    intro hnil
    simp [hnil] at hlast
  have hunescape := unescapeQuotes_escape (s ++ [c]) [] (by simp)
  rw [List.append_nil] at hunescape
  rw [plainValue, hstrip, if_neg hne, hunescape]
  simp [unescapeQuotes]

/-- A quoted string is parsed back if no backslash is in the way and no quote at its end. -/
theorem plainValue_eq_iff {s : Name} (hne : s ≠ []) :
    plainValue ('"' :: (escape s ++ ['"'])) = some s ↔ '\\' ∉ s ∧ s.getLast? ≠ some '"' := by
  obtain ⟨t, c, rfl⟩ := (List.eq_nil_or_concat' s).resolve_left hne
  rw [List.getLast?_concat]
  by_cases hc : c = '"'
  · subst hc
    rw [plainValue_quote]
    refine iff_of_false (fun h => ?_) (fun h => h.2 rfl)
    have hlast := congrArg List.getLast? (Option.some.inj h)
    simp at hlast
  · rw [plainValue_concat t hc, Option.some.injEq]
    constructor
    · intro h
      refine ⟨fun hmem => ?_, by simpa using hc⟩
      have hlen := length_double (t ++ [c])
      have hpos := List.count_pos_iff.2 hmem
      rw [h] at hlen
      omega
    · exact fun h => double_of_notMem h.1

theorem plainValue_ne_none {s : Name} (hne : s ≠ []) :
    plainValue ('"' :: (escape s ++ ['"'])) ≠ none := by
  obtain ⟨t, c, rfl⟩ := (List.eq_nil_or_concat' s).resolve_left hne
  by_cases hc : c = '"'
  · rw [hc, plainValue_quote]
    simp
  · rw [plainValue_concat t hc]
    simp

/-- `attachment; filename="q(s)"` and further parameters. -/
def quotedHeader (s : Name) (ps : List Param) : Name :=
  ['a', 't', 't', 'a', 'c', 'h', 'm', 'e', 'n', 't', ';', ' '] ++ (filenameKey ++
    ('=' :: '"' :: (escape s ++ '"' :: follow (ps.map Param.text))))

/-- The parameter of a quoted name. -/
def filenameParam (s : Name) : Param where
  before := oneSpace
  key := ⟨filenameKey, by decide⟩
  beforeEq := noSpace
  afterEq := noSpace
  value := .quoted (quote s)
  after := noSpace

theorem quotedHeader_eq (s : Name) (ps : List Param) :
    quotedHeader s ps = Header.text ⟨attachment, noSpace, filenameParam s :: ps⟩ := by
  simp [quotedHeader, Header.text, follow, filenameParam, Param.text, Value.text, noSpace, oneSpace,
    attachment, text_quote]

/-- **Quoted names.**  A quoted name, escaped as a quoted string, is parsed back exactly when it has
no backslash and does not end with a quote, whatever parameters other than `filename*` follow. -/
theorem quoted_filename_iff {s : Name} (hne : s ≠ []) {ps : List Param}
    (hps : ∀ p ∈ ps, p.NotStar) :
    parseContentDisposition (quotedHeader s ps) = some s ↔
      '\\' ∉ s ∧ s.getLast? ≠ some '"' := by
  obtain ⟨x, hx⟩ := Option.ne_none_iff_exists'.1 (plainValue_ne_none hne)
  obtain ⟨plain, hplain, hread⟩ := readParams_notStar hps (some x) []
  have hvalue : (filenameParam s).value.text = '"' :: (escape s ++ ['"']) := by
    simp [filenameParam, Value.text, text_quote]
  have hkey : (filenameParam s).key.text.map Char.toLower = filenameKey := by
    change filenameKey.map Char.toLower = filenameKey
    decide
  rw [List.append_nil] at hread
  rw [quotedHeader_eq, parse_header, List.map_cons, readParams_param, hkey, if_neg (by decide),
    if_pos ⟨rfl, rfl⟩, hvalue, hx, hread, readParams, hplain x rfl, ← hx, plainValue_eq_iff hne]

theorem quoted_filename_semicolon :
    parseContentDisposition (quotedHeader ['a', ';', '"', 'b'] []) = some ['a', ';', '"', 'b'] :=
  (quoted_filename_iff (by simp) (by simp)).2 ⟨by simp, by simp⟩

/-- `attachment; filename="a\\\\b"`. -/
theorem quoted_filename_doubles :
    ¬ ∀ s ≠ [], (∀ c ∈ s, isControl c = false) → ∀ ps : List Param, (∀ p ∈ ps, p.NotStar) →
      parseContentDisposition (quotedHeader s ps) = some s := by
  intro h
  have hparse : parseContentDisposition (quotedHeader ['a', '\\', 'b'] []) =
      some ['a', '\\', '\\', 'b'] := by decide
  have hname := h ['a', '\\', 'b'] (by simp) (by simp [isControl]) [] (by simp)
  rw [hparse] at hname
  exact absurd hname (by decide)

end Disposition

end SwiftLoad
