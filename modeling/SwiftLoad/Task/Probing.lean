import SwiftLoad.Http.Client
import SwiftLoad.Machine.TwoRuns
import SwiftLoad.Task.Probe

/-!
# Probing

`task/probe.rs`: the 1-byte ranged request, the redirects it follows by hand, and what is read off
the reply it ends on.  `Naming` stands for `filename::resolve`.

* `follow_orderly` : the invariant of the loop over the hops.
* `probe_redirects_safe` : **a probe sends at most one request more than it may follow redirects,
  only to http and https URLs, and never leaves https when that is blocked.**
-/

namespace SwiftLoad

/-- `filename::resolve`: a name from the disposition, the path of the URL and the content type. -/
abbrev Naming := Option String → String → Option String → Name

/-- What a probe learned, with where it ended. -/
structure ProbeDetails extends ProbeResult where
  /-- The URL as resolved after redirects, which later requests target. -/
  finalUrl : Url
  etag : Option Validator
  lastModified : Option String
  contentType : Option String
  redirectChain : List Hop
deriving DecidableEq

/-- `ProbeError`. -/
inductive ProbeError
  | unsupportedScheme (scheme : String)
  | invalidUrl (text : String)
  | redirect (error : RedirectError)
  | status (code : ℕ) (error : ErrorClass)
  | transport (text : String)
  | client (text : String)
deriving DecidableEq

/-- What the user reads. -/
def ProbeError.display : ProbeError → String
  | unsupportedScheme scheme =>
    let scheme := debugStr scheme
    s!"unsupported url scheme {scheme}: only http and https are downloadable"
  | invalidUrl text => s!"invalid url: {text}"
  | redirect error =>
    let error := error.display
    s!"redirect refused: {error}"
  | status code _ => s!"server returned {code}"
  | transport text => s!"transport error: {text}"
  | client text => s!"client setup failed: {text}"

/-- The reply asks to go elsewhere. -/
def Reply.isRedirect (r : Reply) : Bool := decide (300 ≤ r.status ∧ r.status < 400)

/-- `strip_auth`. -/
def stripAuth (headers : List (String × String)) : List (String × String) :=
  headers.filter fun h => !isCredential h.1

/-- What goes to a URL: the credentials of the caller only while we are at the original origin. -/
def effectiveSpec (spec : RequestSpec) (origin current : Url) : RequestSpec :=
  if isCrossOrigin origin current then
    { spec with cookies := none, headers := stripAuth spec.headers }
  else spec

/-- The 1-byte ranged request. -/
def probeRequest (client : Client) (spec : RequestSpec) (origin current : Url) : Request where
  client := client
  url := current
  headers := applySpec (effectiveSpec spec origin current) ++ [rangeHeader 0 0]

/-- `interpret`: read a reply. -/
def interpret (naming : Naming) (reply : Reply) (finalUrl : Url) (chain : List Hop) :
    ProbeDetails :=
  let learned : RangeSupport × Option ℕ :=
    if reply.status = 206 then
      match reply.contentRange with
      -- ranges work and the total is stated authoritatively
      | some cr => (.supported, cr.total)
      -- a broken server; do not trust ranges
      | none => (.unsupported, reply.contentLength)
    else (.unsupported, reply.contentLength)
  { filename := naming reply.disposition finalUrl.path reply.contentType
    totalSize := learned.2
    -- never trust ranges when the body is transformed
    rangeSupport := if reply.transforming then .unsupported else learned.1
    transformingEncoding := reply.transforming
    finalUrl := finalUrl
    etag := reply.etag.bind Validator.parse
    lastModified := reply.lastModified
    contentType := reply.contentType
    redirectChain := chain }

/-- `validate_url`: a URL that is something we are willing to download. -/
def validateUrl (lib : UrlLib) (raw : String) : Except ProbeError Url :=
  match lib.parse raw with
  | .error text => .error (.invalidUrl text)
  | .ok url => if url.downloadable then .ok url else .error (.unsupportedScheme url.scheme)

section

variable (lib : UrlLib) (net : Net) (naming : Naming) (settings : Settings) (spec : RequestSpec)
  (worked : Bool) (origin : Url)

/-- One hop: build a client and send the request. -/
def ask (current : Url) : Program (List Exchange) ProbeError Reply :=
  match Client.build net settings spec current with
  | .error error => throw (.client error.display)
  | .ok client => do
    match ← net.send (probeRequest client spec origin current) with
    | .error kind => throw (.transport (net.display kind current))
    | .ok reply => pure reply

/-- The body of the loop of `probe`, with the number of hops left after this one: the result, or
the next URL and the chain that leads to it. -/
def hop (left : ℕ) (current : Url) (chain : List Hop) :
    Program (List Exchange) ProbeError (ProbeDetails ⊕ Url × List Hop) := do
  let reply ← ask net settings spec origin current
  if reply.isRedirect then
    if left = 0 then throw (.redirect (.tooMany settings.maxRedirects))
    else
      match reply.location with
      | none => throw (.redirect (.malformed "no Location"))
      | some location =>
        match nextUrl lib current location (!settings.blockInsecureRedirect) with
        | .error error => throw (.redirect error)
        | .ok next => pure (.inr (next, chain ++ [recordHop lib current reply.status]))
  else if reply.success = false then
    throw (.status reply.status (classifyStatus reply.status reply.retryAfter worked))
  else pure (.inl (interpret naming reply current chain))

/-- The loop of `probe`, with the number of hops left. -/
def follow : ℕ → Url → List Hop → Program (List Exchange) ProbeError ProbeDetails
  | 0, _, _ => throw (.redirect (.tooMany settings.maxRedirects))
  | left + 1, current, chain => do
    match ← hop lib net naming settings spec worked origin left current chain with
    | .inl details => pure details
    | .inr (next, chain) => follow left next chain

/-- `probe`: everything the planner needs.  `worked` says that the URL used to work. -/
def probe (raw : String) : Program (List Exchange) ProbeError ProbeDetails :=
  match validateUrl lib raw with
  | .error error => throw error
  | .ok url => follow lib net naming settings spec worked url (settings.maxRedirects + 1) url []

end

variable {lib : UrlLib} {net : Net} {naming : Naming} {settings : Settings} {spec : RequestSpec}
  {worked : Bool} {origin current : Url}

theorem validateUrl_ok {raw : String} {url : Url} (h : validateUrl lib raw = .ok url) :
    lib.parse raw = .ok url ∧ url.downloadable = true := by
  unfold validateUrl at h
  cases hp : lib.parse raw with
  | error text => rw [hp] at h; cases h
  | ok u =>
    rw [hp] at h
    dsimp only at h
    split_ifs at h with hd
    cases h
    exact ⟨rfl, hd⟩

/-! ### One hop -/

/-- What comes of a request to the current URL when so many were sent before. -/
def Answered (net : Net) (settings : Settings) (spec : RequestSpec) (origin current : Url) (n : ℕ)
    (r : Except String Reply) (x : Exchange) : Prop :=
  ∃ client, Client.build net settings spec current = .ok client ∧
    net.answer n (probeRequest client spec origin current) = r ∧
    x = ⟨probeRequest client spec origin current, r⟩

/-- One hop sends at most one request, to the current URL. -/
theorem ask_spec (t₀ : List Exchange) :
    Program.Triple (· = t₀) (ask net settings spec origin current)
      (fun reply t => ∃ x, Answered net settings spec origin current t₀.length (.ok reply) x ∧
        t = t₀ ++ [x])
      (fun _ t => t = t₀ ∨
        ∃ r x, Answered net settings spec origin current t₀.length r x ∧ t = t₀ ++ [x]) := by
  unfold ask
  cases hbuild : Client.build net settings spec current with
  | error error => exact Program.Triple.throw fun t ht => .inl ht
  | ok client =>
    refine Program.Triple.bind (Q := fun r t => ∃ x,
      Answered net settings spec origin current t₀.length r x ∧ t = t₀ ++ [x])
      (Program.Triple.modifyGet fun t ht => ?_) fun r => ?_
    · rw [ht]
      exact ⟨_, ⟨client, hbuild, rfl, rfl⟩, rfl⟩
    · cases r with
      | error kind => exact Program.Triple.throw fun t ht => .inr ⟨_, ht⟩
      | ok reply => exact Program.Triple.pure fun t ht => ht

/-- What a hop that does not fail leads to: the end of the chain, or the next URL. -/
theorem hop_spec (left : ℕ) (chain : List Hop) (t₀ : List Exchange) :
    Program.Triple (· = t₀) (hop lib net naming settings spec worked origin left current chain)
      (fun res t => ∃ reply x,
        Answered net settings spec origin current t₀.length (.ok reply) x ∧ t = t₀ ++ [x] ∧
        (reply.isRedirect = false ∧ reply.success = true ∧
            res = .inl (interpret naming reply current chain) ∨
          reply.isRedirect = true ∧ left ≠ 0 ∧ ∃ location next, reply.location = some location ∧
            nextUrl lib current location (!settings.blockInsecureRedirect) = .ok next ∧
            res = .inr (next, chain ++ [recordHop lib current reply.status])))
      (fun _ t => t = t₀ ∨
        ∃ r x, Answered net settings spec origin current t₀.length r x ∧ t = t₀ ++ [x]) := by
  unfold hop
  refine Program.Triple.bind (ask_spec t₀) fun reply => Program.Triple.of_exists fun x =>
    Program.Triple.of_and fun hx => ?_
  refine Program.Triple.ite (fun hred => ?_) fun hred => ?_
  · refine Program.Triple.ite (fun _ => Program.Triple.throw fun t ht => .inr ⟨_, x, hx, ht⟩)
      fun hleft => ?_
    cases hloc : reply.location with
    | none => exact Program.Triple.throw fun t ht => .inr ⟨_, x, hx, ht⟩
    | some location =>
      dsimp only
      cases hn : nextUrl lib current location (!settings.blockInsecureRedirect) with
      | error error => exact Program.Triple.throw fun t ht => .inr ⟨_, x, hx, ht⟩
      | ok next =>
        exact Program.Triple.pure fun t ht =>
          ⟨reply, x, hx, ht, .inr ⟨hred, hleft, location, next, hloc, hn, rfl⟩⟩
  · refine Program.Triple.ite (fun _ => Program.Triple.throw fun t ht => .inr ⟨_, x, hx, ht⟩)
      fun hsucc => ?_
    exact Program.Triple.pure fun t ht =>
      ⟨reply, x, hx, ht, .inl ⟨Bool.eq_false_iff.2 hred, by simpa using hsucc, rfl⟩⟩

theorem hop_length {left : ℕ} {chain : List Hop} {t t' : List Exchange}
    {res : ProbeDetails ⊕ Url × List Hop}
    (h : (hop lib net naming settings spec worked origin left current chain).runFrom t =
      (.ok res, t')) : t'.length = t.length + 1 := by
  have hspec : Program.Ends _ _
    ((hop lib net naming settings spec worked origin left current chain).runFrom t) :=
    hop_spec left chain t t rfl
  rw [h] at hspec
  obtain ⟨_, x, _, rfl, _⟩ := hspec
  rw [List.length_append, List.length_singleton]

/-- The rule for the loop over the hops: where it ends, and how it goes on. -/
theorem follow_rule {left : ℕ} {chain : List Hop} {t₀ : List Exchange}
    {Q : ProbeDetails → List Exchange → Prop} {E : ProbeError → List Exchange → Prop}
    (hnone : ∀ e, E e t₀)
    (herr : ∀ e r x, Answered net settings spec origin current t₀.length r x → E e (t₀ ++ [x]))
    (hok : ∀ reply x, Answered net settings spec origin current t₀.length (.ok reply) x →
      reply.isRedirect = false → reply.success = true →
        Q (interpret naming reply current chain) (t₀ ++ [x]))
    (hnext : ∀ reply x location next,
      Answered net settings spec origin current t₀.length (.ok reply) x →
      reply.isRedirect = true → reply.location = some location → left ≠ 0 →
      nextUrl lib current location (!settings.blockInsecureRedirect) = .ok next →
        Program.Triple (· = t₀ ++ [x])
          (follow lib net naming settings spec worked origin left next
            (chain ++ [recordHop lib current reply.status])) Q E) :
    Program.Triple (· = t₀)
      (follow lib net naming settings spec worked origin (left + 1) current chain) Q E := by
  rw [follow]
  refine Program.Triple.bind ((hop_spec left chain t₀).conseq (fun _ h => h) (fun _ _ h => h) ?_)
    fun res => ?_
  · rintro e t (rfl | ⟨r, x, hx, rfl⟩)
    · exact hnone e
    · exact herr e r x hx
  · refine Program.Triple.of_exists fun reply => Program.Triple.of_exists fun x =>
      Program.Triple.of_and fun hx => ?_
    rintro t ⟨rfl, ⟨hred, hsucc, rfl⟩ | ⟨hred, hleft, location, next, hloc, hn, rfl⟩⟩
    · exact hok reply x hx hred hsucc
    · exact hnext reply x location next hx hred hloc hleft hn _ rfl

/-! ### Redirect safety -/

/-- The URLs of the exchanges, in order. -/
def urls (traffic : List Exchange) : List Url := traffic.map fun x => x.request.url

@[simp] theorem urls_append (t t' : List Exchange) : urls (t ++ t') = urls t ++ urls t' :=
  List.map_append

theorem Answered.urls_eq {n : ℕ} {r : Except String Reply} {x : Exchange}
    (h : Answered net settings spec origin current n r x) : urls [x] = [current] := by
  obtain ⟨client, _, _, rfl⟩ := h
  rfl

/-- Only http and https, and when `block` is set never away from https. -/
structure Orderly (block : Bool) (urls : List Url) : Prop where
  downloadable : ∀ u ∈ urls, u.downloadable = true
  secure : block = true → urls.Pairwise fun u v => u.scheme = "https" → v.scheme = "https"

theorem Orderly.of_append {block : Bool} {l l' : List Url} (h : Orderly block (l ++ l')) :
    Orderly block l :=
  ⟨fun u hu => h.downloadable u (List.mem_append_left _ hu),
    fun hb => (List.pairwise_append.1 (h.secure hb)).1⟩

theorem Orderly.snoc {l : List Url} {location : String} {next : Url}
    (h : Orderly settings.blockInsecureRedirect (l ++ [current]))
    (hnext : nextUrl lib current location (!settings.blockInsecureRedirect) = .ok next) :
    Orderly settings.blockInsecureRedirect (l ++ [current] ++ [next]) := by
  obtain ⟨_, hdl, hdown⟩ := nextUrl_ok hnext
  refine ⟨fun u hu => ?_, fun hb => ?_⟩
  · rcases List.mem_append.1 hu with hu | hu
    · exact h.downloadable u hu
    · rwa [List.mem_singleton.1 hu]
  · have hpair := h.secure hb
    refine List.pairwise_append.2 ⟨hpair, List.pairwise_singleton _ _, fun u hu v hv hs => ?_⟩
    rw [List.mem_singleton.1 hv]
    refine hdown (by rw [hb]; rfl) ?_
    rcases List.mem_append.1 hu with hu | hu
    · exact (List.pairwise_append.1 hpair).2.2 u hu current (List.mem_singleton_self _) hs
    · rwa [← List.mem_singleton.1 hu]

/-- The loop over the hops.  The invariant is that the URLs so far and the current one are in
order. -/
theorem follow_orderly (left : ℕ) (chain : List Hop) {t₀ : List Exchange}
    (h : Orderly settings.blockInsecureRedirect (urls t₀ ++ [current])) :
    Program.Triple (· = t₀)
      (follow lib net naming settings spec worked origin left current chain)
      (fun _ t => Orderly settings.blockInsecureRedirect (urls t) ∧ t.length ≤ t₀.length + left)
      (fun _ t => Orderly settings.blockInsecureRedirect (urls t) ∧
        t.length ≤ t₀.length + left) := by
  induction left generalizing current chain t₀ with
  | zero => exact Program.Triple.throw fun t ht => by rw [ht]; exact ⟨h.of_append, le_rfl⟩
  | succ left ih =>
    have hsent : ∀ {r x}, Answered net settings spec origin current t₀.length r x →
        Orderly settings.blockInsecureRedirect (urls (t₀ ++ [x])) ∧
          (t₀ ++ [x]).length ≤ t₀.length + (left + 1) := by
      intro r x hx
      rw [urls_append, hx.urls_eq, List.length_append, List.length_singleton]
      exact ⟨h, by omega⟩
    refine follow_rule (fun _ => ⟨h.of_append, by omega⟩) (fun _ _ _ hx => hsent hx)
      (fun _ _ hx _ _ => hsent hx) fun reply x location next hx _ _ _ hnext => ?_
    have hnext' : Orderly settings.blockInsecureRedirect (urls (t₀ ++ [x]) ++ [next]) := by
      rw [urls_append, hx.urls_eq]
      exact h.snoc hnext
    refine (ih (chain ++ [recordHop lib current reply.status]) hnext').conseq (fun _ ht => ht) ?_ ?_
    · rintro _ t ⟨hord, hlen⟩
      rw [List.length_append, List.length_singleton] at hlen
      exact ⟨hord, by omega⟩
    · rintro _ t ⟨hord, hlen⟩
      rw [List.length_append, List.length_singleton] at hlen
      exact ⟨hord, by omega⟩

/-- **Redirects are safe over whole chains.**  Whatever the server answers, a probe sends at most
`max_redirects + 1` requests, all to http or https URLs, and when insecure redirects are blocked
everything after an https URL is https. -/
theorem probe_redirects_safe (lib : UrlLib) (net : Net) (naming : Naming) (settings : Settings)
    (spec : RequestSpec) (worked : Bool) (raw : String) :
    let sent := urls ((probe lib net naming settings spec worked raw).runFrom []).2
    sent.length ≤ settings.maxRedirects + 1 ∧
      (∀ u ∈ sent, u.scheme = "http" ∨ u.scheme = "https") ∧
      (settings.blockInsecureRedirect = true →
        sent.Pairwise fun u v => u.scheme = "https" → v.scheme = "https") := by
  have hsafe : Orderly settings.blockInsecureRedirect
        (urls ((probe lib net naming settings spec worked raw).runFrom []).2) ∧
      ((probe lib net naming settings spec worked raw).runFrom []).2.length ≤
        settings.maxRedirects + 1 := by
    unfold probe
    cases hurl : validateUrl lib raw with
    | error error => exact ⟨⟨by simp [urls], fun _ => List.Pairwise.nil⟩, Nat.zero_le _⟩
    | ok url =>
      have hstart : Orderly settings.blockInsecureRedirect (urls [] ++ [url]) :=
        ⟨by simpa [urls] using (validateUrl_ok hurl).2, fun _ => List.pairwise_singleton _ _⟩
      have hrun : Program.Triple (· = [])
          (follow lib net naming settings spec worked url (settings.maxRedirects + 1) url []) _ _ :=
        follow_orderly _ [] hstart
      have hend := hrun.final rfl
      exact ⟨hend.1, by simpa using hend.2⟩
  intro sent
  obtain ⟨hord, hlen⟩ := hsafe
  exact ⟨by simpa [sent, urls] using hlen,
    fun u hu => Url.downloadable_iff.1 (hord.downloadable u hu), hord.secure⟩

/-! ### The chain of redirects -/

section Chain

variable (lib : UrlLib) (net : Net) (settings : Settings) (spec : RequestSpec) (origin : Url) in
/-- The chain of redirects that the server sends a probe along: the `n`-th request goes here. -/
inductive Leads : ℕ → Url → Prop
  | start : Leads 0 origin
  | next {n : ℕ} {u next : Url} {reply : Reply} {x : Exchange} {location : String}
      (h : Leads n u) (hx : Answered net settings spec origin u n (.ok reply) x)
      (hred : reply.isRedirect = true) (hloc : reply.location = some location)
      (hn : n < settings.maxRedirects)
      (hnext : nextUrl lib u location (!settings.blockInsecureRedirect) = .ok next) :
      Leads (n + 1) next

variable (lib net settings spec origin) in
/-- The chain ends here, with this reply. -/
def Lands (u : Url) (reply : Reply) : Prop :=
  ∃ n x, Leads lib net settings spec origin n u ∧
    Answered net settings spec origin u n (.ok reply) x ∧ reply.isRedirect = false ∧
      reply.success = true

theorem follow_lands (left : ℕ) (chain : List Hop) {t₀ : List Exchange}
    (hlen : t₀.length + left = settings.maxRedirects + 1)
    (h : Leads lib net settings spec origin t₀.length current) :
    Program.Triple (· = t₀)
      (follow lib net naming settings spec worked origin left current chain)
      (fun pr _ => ∃ u reply chain, Lands lib net settings spec origin u reply ∧
        pr = interpret naming reply u chain) (fun _ _ => True) := by
  induction left generalizing current chain t₀ with
  | zero => exact Program.Triple.throw fun _ _ => trivial
  | succ left ih =>
    refine follow_rule (fun _ => trivial) (fun _ _ _ _ => trivial)
      (fun reply x hx hred hsucc => ⟨current, reply, chain, ⟨_, x, h, hx, hred, hsucc⟩, rfl⟩)
      fun reply x location next hx hred hloc hleft hnext => ?_
    refine ih _ ?_ ?_
    · rw [List.length_append, List.length_singleton]
      omega
    · rw [List.length_append, List.length_singleton]
      exact h.next hx hred hloc (by omega) hnext

theorem probe_lands (raw : String) :
    Program.Triple (· = []) (probe lib net naming settings spec worked raw)
      (fun pr _ => ∃ start u reply chain, validateUrl lib raw = .ok start ∧
        Lands lib net settings spec start u reply ∧ pr = interpret naming reply u chain)
      (fun _ _ => True) := by
  unfold probe
  cases validateUrl lib raw with
  | error error => exact Program.Triple.throw fun _ _ => trivial
  | ok start =>
    exact (follow_lands _ [] (by simp) .start).conseq (fun _ h => h)
      (fun _ _ ⟨u, reply, chain, h⟩ => ⟨start, u, reply, chain, rfl, h⟩) fun _ _ _ => trivial

theorem hop_redirect {left : ℕ} {chain : List Hop} {t : List Exchange} {reply : Reply}
    {x : Exchange} {location : String} {next : Url}
    (hx : Answered net settings spec origin current t.length (.ok reply) x)
    (hred : reply.isRedirect = true) (hleft : left ≠ 0) (hloc : reply.location = some location)
    (hnext : nextUrl lib current location (!settings.blockInsecureRedirect) = .ok next) :
    (hop lib net naming settings spec worked origin left current chain).runFrom t =
      (.ok (.inr (next, chain ++ [recordHop lib current reply.status])), t ++ [x]) := by
  obtain ⟨client, hbuild, hans, rfl⟩ := hx
  unfold hop ask
  simp only [hbuild, Program.runFrom_bind, Net.send, Program.runFrom_modifyGet, hans,
    Program.runFrom_pure, hred, if_true, if_neg hleft, hloc, hnext]

theorem hop_landed {left : ℕ} {chain : List Hop} {t : List Exchange} {reply : Reply}
    {x : Exchange} (hx : Answered net settings spec origin current t.length (.ok reply) x)
    (hred : reply.isRedirect = false) (hsucc : reply.success = true) :
    (hop lib net naming settings spec worked origin left current chain).runFrom t =
      (.ok (.inl (interpret naming reply current chain)), t ++ [x]) := by
  obtain ⟨client, hbuild, hans, rfl⟩ := hx
  unfold hop ask
  simp only [hbuild, Program.runFrom_bind, Net.send, Program.runFrom_modifyGet, hans,
    Program.runFrom_pure, hred, hsucc, Bool.false_eq_true, if_false, Bool.true_eq_false]

variable (naming worked) in
theorem exists_follow {n : ℕ} {u : Url} (h : Leads lib net settings spec origin n u) :
    ∃ chain t, t.length = n ∧ n ≤ settings.maxRedirects ∧
      (follow lib net naming settings spec worked origin (settings.maxRedirects + 1) origin
          []).runFrom [] =
        (follow lib net naming settings spec worked origin (settings.maxRedirects + 1 - n) u
          chain).runFrom t := by
  induction h with
  | start => exact ⟨[], [], rfl, Nat.zero_le _, rfl⟩
  | @next n u next reply x location _ hx hred hloc hn hnext ih =>
    obtain ⟨chain, t, rfl, hle, heq⟩ := ih
    refine ⟨chain ++ [recordHop lib u reply.status], t ++ [x], by simp, hn, ?_⟩
    obtain ⟨left, hleft⟩ : ∃ left, settings.maxRedirects + 1 - t.length = left + 1 :=
      ⟨settings.maxRedirects - t.length, by omega⟩
    rw [heq, hleft, follow, Program.runFrom_bind,
      hop_redirect hx hred (by omega) hloc hnext]
    have hrest : settings.maxRedirects + 1 - (t.length + 1) = left := by omega
    rw [hrest]

/-- The probe returns what the chain lands on. -/
theorem probe_of_lands {raw : String} {start u : Url} {reply : Reply}
    (hstart : validateUrl lib raw = .ok start) (h : Lands lib net settings spec start u reply) :
    ∃ chain t, (probe lib net naming settings spec worked raw).runFrom [] =
      (.ok (interpret naming reply u chain), t) := by
  obtain ⟨n, x, hleads, hx, hred, hsucc⟩ := h
  obtain ⟨chain, t, rfl, hle, heq⟩ := exists_follow naming worked hleads
  obtain ⟨left, hleft⟩ : ∃ left, settings.maxRedirects + 1 - t.length = left + 1 :=
    ⟨settings.maxRedirects - t.length, by omega⟩
  refine ⟨chain, t ++ [x], ?_⟩
  unfold probe
  rw [hstart]
  dsimp only
  rw [heq, hleft, follow, Program.runFrom_bind, hop_landed hx hred hsucc]
  rfl

end Chain

/-! ### Two probes -/

section TwoProbes

variable {net' : Net} {naming' : Naming} {origin' current' : Url} {V : Url → Url → Prop}
  {D : ProbeDetails → ProbeDetails → Prop} {E : ProbeError → ProbeError → Prop}

/-- Two targets of redirects that lead to related URLs or errors. -/
inductive TargetsAlike (lib : UrlLib) (settings : Settings) (V : Url → Url → Prop)
    (E : ProbeError → ProbeError → Prop) (current current' : Url) :
    Option String → Option String → Prop
  | none : TargetsAlike lib settings V E current current' none none
  | some {location location' : String}
      (h : Program.EndAlike V (fun e e' => E (.redirect e) (.redirect e'))
        (nextUrl lib current location (!settings.blockInsecureRedirect))
        (nextUrl lib current' location' (!settings.blockInsecureRedirect))) :
      TargetsAlike lib settings V E current current' (some location) (some location')

/-- Two answers that lead a hop to related ends. -/
inductive AnswersAlike (lib : UrlLib) (net net' : Net) (naming naming' : Naming)
    (settings : Settings) (V : Url → Url → Prop) (D : ProbeDetails → ProbeDetails → Prop)
    (E : ProbeError → ProbeError → Prop) (more : Prop) (current current' : Url) :
    Except String Reply → Except String Reply → Prop
  | error {kind kind' : String}
      (h : E (.transport (net.display kind current)) (.transport (net'.display kind' current'))) :
      AnswersAlike lib net net' naming naming' settings V D E more current current' (.error kind)
        (.error kind')
  | ok {reply reply' : Reply} (hstatus : reply.status = reply'.status)
      (hretry : reply.retryAfter = reply'.retryAfter)
      (htarget : more → reply.isRedirect = true →
        TargetsAlike lib settings V E current current' reply.location reply'.location)
      (hdetails : ∀ chain chain', D (interpret naming reply current chain)
        (interpret naming' reply' current' chain')) :
      AnswersAlike lib net net' naming naming' settings V D E more current current' (.ok reply)
        (.ok reply')

/-- What two hops have to share: the client, the headers they send and alike answers. -/
structure HopsAlike (lib : UrlLib) (net net' : Net) (naming naming' : Naming)
    (settings : Settings) (spec : RequestSpec) (V : Url → Url → Prop)
    (D : ProbeDetails → ProbeDetails → Prop) (E : ProbeError → ProbeError → Prop)
    (origin origin' : Url) (n : ℕ) (more : Prop) (current current' : Url) : Prop where
  build : Client.build net settings spec current = Client.build net' settings spec current'
  answers : ∀ client, Client.build net settings spec current = .ok client →
    AnswersAlike lib net net' naming naming' settings V D E more current current'
      (net.answer n (probeRequest client spec origin current))
      (net'.answer n (probeRequest client spec origin' current'))

variable (worked) in
theorem hop_alike {left : ℕ} (chain chain' : List Hop) {t t' : List Exchange}
    (hE : ∀ e, E e e) (hlen : t.length = t'.length)
    (h : HopsAlike lib net net' naming naming' settings spec V D E origin origin' t.length
      (left ≠ 0) current current') :
    Program.EndAlike (Sum.LiftRel D fun p p' => V p.1 p'.1) E
        ((hop lib net naming settings spec worked origin left current chain).runFrom t).1
        ((hop lib net' naming' settings spec worked origin' left current' chain').runFrom t').1 ∧
      ((hop lib net naming settings spec worked origin left current chain).runFrom t).2.length =
        ((hop lib net' naming' settings spec worked origin' left current' chain').runFrom
          t').2.length := by
  unfold hop ask
  rw [← h.build]
  cases hb : Client.build net settings spec current with
  | error error => exact ⟨.error (hE _), hlen⟩
  | ok client =>
    have hans := h.answers client hb
    simp only [Program.runFrom_bind, Net.send, Program.runFrom_modifyGet, ← hlen]
    generalize net.answer t.length (probeRequest client spec origin current) = r at hans ⊢
    generalize net'.answer t.length (probeRequest client spec origin' current') = r' at hans ⊢
    have hsent : ∀ x x' : Exchange, (t ++ [x]).length = (t' ++ [x']).length := fun x x' => by
      rw [List.length_append, List.length_append, hlen]
      rfl
    cases hans with
    | error h => exact ⟨.error h, hsent _ _⟩
    | @ok reply reply' hstatus hretry htarget hdetails =>
      have hred : reply'.isRedirect = reply.isRedirect := by
        rw [Reply.isRedirect, Reply.isRedirect, hstatus]
      have hsucc : reply'.success = reply.success := by
        rw [Response.success, Response.success, hstatus]
      dsimp only [Program.runFrom_pure]
      rw [hred, hsucc, ← hstatus, ← hretry]
      split_ifs with h₁ h₂ h₃
      · exact ⟨.error (hE _), hsent _ _⟩
      · have hloc := htarget h₂ h₁
        generalize reply.location = l at hloc ⊢
        generalize reply'.location = l' at hloc ⊢
        cases hloc with
        | none => exact ⟨.error (hE _), hsent _ _⟩
        | some hnext =>
          dsimp only
          generalize nextUrl lib current _ _ = n at hnext ⊢
          generalize nextUrl lib current' _ _ = n' at hnext ⊢
          cases hnext with
          | ok h => exact ⟨.ok (.inr h), hsent _ _⟩
          | error h => exact ⟨.error h, hsent _ _⟩
      · exact ⟨.error (hE _), hsent _ _⟩
      · exact ⟨.ok (.inl (hdetails _ _)), hsent _ _⟩

/-- Two probes that share every hop end alike.  `V` relates the URLs after so many requests. -/
theorem follow_alike {V : ℕ → Url → Url → Prop} {N : ℕ} (hE : ∀ e, E e e)
    (hops : ∀ n left u u', V n u u' → n + left + 1 = N →
      HopsAlike lib net net' naming naming' settings spec (V (n + 1)) D E origin origin' n
        (left ≠ 0) u u')
    {left : ℕ} {chain chain' : List Hop} {t t' : List Exchange} (hlen : t.length = t'.length)
    (hN : t.length + left = N) (hV : V t.length current current') :
    Program.EndAlike D E
        ((follow lib net naming settings spec worked origin left current chain).runFrom t).1
        ((follow lib net' naming' settings spec worked origin' left current' chain').runFrom t').1 ∧
      ((follow lib net naming settings spec worked origin left current chain).runFrom t).2.length =
        ((follow lib net' naming' settings spec worked origin' left current' chain').runFrom
          t').2.length := by
  induction left generalizing current current' chain chain' t t' with
  | zero => exact ⟨.error (hE _), hlen⟩
  | succ left ih =>
    rw [follow, follow, Program.runFrom_bind, Program.runFrom_bind]
    obtain ⟨hend, hlen'⟩ := hop_alike worked chain chain' hE hlen
      (hops t.length left current current' hV (by omega))
    rcases hr : (hop lib net naming settings spec worked origin left current chain).runFrom t with
      ⟨r, s⟩
    rcases hr' : (hop lib net' naming' settings spec worked origin' left current' chain').runFrom
      t' with ⟨r', s'⟩
    rw [hr, hr'] at hend hlen'
    cases hend with
    | error h => exact ⟨.error h, hlen'⟩
    | ok h =>
      cases h with
      | inl h => exact ⟨.ok h, hlen'⟩
      | inr h =>
        have hs : s.length = t.length + 1 := hop_length hr
        exact ih hlen' (by omega) (by rw [hs]; exact h)

end TwoProbes

end SwiftLoad
