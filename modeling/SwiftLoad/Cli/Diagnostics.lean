import SwiftLoad.Cli.Commands
import SwiftLoad.Store.History
import SwiftLoad.Task.Probing

/-!
# Stored diagnostics

The text that `run` of `main.rs` passes to `set_status` when a download fails.  It is assembled from
the texts of nested errors, and two of these hold what the server was asked for or sent: the text
of a transport error, and a redirect target that is no URL.

* `RunStores` : the error messages that a run can store.
* `Reveals` : the texts that the server can put into the error of a probe.
* `diagnostics_public_iff` : **two runs that differ only in secrets store the same messages exactly
  when these texts are the same.**
-/

namespace SwiftLoad

/-! ### The texts of errors -/

/-- The digits after the decimal point, down to the last that is not zero. -/
def fractionDigits : ℕ → ℕ → List Char
  | 0, _ => []
  | width + 1, frac =>
    if frac = 0 then []
    else Nat.digitChar (frac / 10 ^ width) :: fractionDigits width (frac % 10 ^ width)

/-- A number of units with its fraction, which has `width` digits. -/
def debugDecimal (whole frac width : ℕ) (unit : String) : String :=
  let digits := String.ofList (fractionDigits width frac)
  if frac = 0 then s!"{whole}{unit}" else s!"{whole}.{digits}{unit}"

/-- `{:?}` of a duration. -/
def debugNanos (d : Nanos) : String :=
  if secs 1 ≤ d then debugDecimal (d / secs 1) (d % secs 1) 9 "s"
  else if millis 1 ≤ d then debugDecimal (d / millis 1) (d % millis 1) 6 "ms"
  else if 1000 ≤ d then debugDecimal (d / 1000) (d % 1000) 3 "µs"
  else debugDecimal d 0 0 "ns"

example : debugNanos (millis 1500) = "1.5s" := by decide

/-- `{:?}` of an error class. -/
def ErrorClass.debug : ErrorClass → String
  | transientNetwork => "TransientNetwork"
  | transientServer => "TransientServer"
  | rateLimited none => "RateLimited \x7b retry_after: None \x7d"
  | rateLimited (some d) =>
    let d := debugNanos d
    s!"RateLimited \x7b retry_after: Some({d}) \x7d"
  | urlExpired => "UrlExpired"
  | fatal => "Fatal"
  | rangeUnsupported => "RangeUnsupported"
  | rangeLied => "RangeLied"
  | resourceChanged => "ResourceChanged"
  | localFatal => "LocalFatal"
  | networkDown => "NetworkDown"

/-- What the user reads.  `cause` is the text of the error inside. -/
def DownloadError.display (cause : String) : DownloadError → String
  | probe => s!"probe failed: {cause}"
  | io => s!"io error: {cause}"
  | failed error =>
    let error := error.debug
    s!"download failed: {error}"
  | incomplete done total gaps => s!"incomplete: {done} of {total} bytes, {gaps} gap(s) remain"
  | checksumMismatch expected actual =>
    let expected := String.ofList expected
    let actual := String.ofList actual
    s!"checksum mismatch: expected {expected}, got {actual}"
  | cancelled => "cancelled"

/-- The `error_message` that `run` stores for an outcome of `download`. -/
def errorMessage (cause : String) : Except DownloadError File → Option String
  | .ok _ => none
  | .error error => some (error.display cause)

/-! ### A run -/

/-- What `run` finds on the machine. -/
structure RunEnv where
  /-- `Store::host_profile`, with its error. -/
  hostProfile : String → Option HostHint
  expectedSha256 : Option Name
  available : ℕ
  existing : Option File
  /-- The text of an I/O error. -/
  ioError : String

section

variable (lib : UrlLib) (net : Net) (naming : Naming) (settings : Settings) (spec : RequestSpec)

/-- The `error_message` that `run` can leave with a record. -/
inductive RunStores (env : RunEnv) (r : LinkedRecord) : Option String → Prop
  | probe {error : ProbeError}
      (h : ((SwiftLoad.probe lib net naming settings spec false r.currentUrl).runFrom []).1 =
        .error error) :
      RunStores env r (errorMessage error.display (.error .probe))
  | ran {pr : ProbeDetails}
      (h : ((SwiftLoad.probe lib net naming settings spec false r.currentUrl).runFrom []).1 =
        .ok pr)
      {answer : Option RangeSet} {log : List IoEvent} {outcome : Except DownloadError File}
      (hd : Downloads settings
        (r.request env.expectedSha256 (env.hostProfile (Redact.hostOf lib r.currentUrl)))
        pr.toProbeResult env.available env.existing answer log outcome) :
      RunStores env r (errorMessage env.ioError outcome)

/-- The texts that the server can put into the error of a probe. -/
inductive Reveals (origin : Url) : String → Prop
  /-- The text of a transport error. -/
  | transport {n : ℕ} {u : Url} {kind : String} {x : Exchange}
      (h : Leads lib net settings spec origin n u)
      (hx : Answered net settings spec origin u n (.error kind) x) :
      Reveals origin (net.display kind u)
  /-- A redirect target that cannot be joined. -/
  | target {n : ℕ} {u : Url} {reply : Reply} {x : Exchange} {location error : String}
      (h : Leads lib net settings spec origin n u)
      (hx : Answered net settings spec origin u n (.ok reply) x) (hred : reply.isRedirect = true)
      (hn : n < settings.maxRedirects) (hloc : reply.location = some location)
      (hjoin : lib.join u location = .error error) : Reveals origin location

end

/-! ### Runs that differ only in secrets -/

/-- The part of a text before the path of a URL without the userinfo. -/
def dropUserinfo : List Char → List Char
  | '/' :: '/' :: rest =>
    let authority := rest.takeWhile (· ≠ '/')
    '/' :: '/' :: (authority.reverse.takeWhile (· ≠ '@')).reverse ++ rest.dropWhile (· ≠ '/')
  | c :: rest => c :: dropUserinfo rest
  | [] => []

/-- What is public of a text that is no URL: what stands before the query, without the userinfo, and
the names of the parameters. -/
def publicText (s : String) : List Char × List (List Char) :=
  let body := s.toList.takeWhile (· ≠ '#')
  (dropUserinfo (body.takeWhile (· ≠ '?')),
    ((body.dropWhile (· ≠ '?')).splitOn '&').map fun p => p.takeWhile (· ≠ '='))

namespace UrlLib

variable (lib : UrlLib)

/-- Two requested texts: URLs that differ at most in their secrets, or no URLs for one reason. -/
def SameRequested (a b : String) : Prop :=
  Program.EndAlike lib.SamePublic (· = ·) (lib.parse a) (lib.parse b)

/-- Two redirect targets: URLs that differ at most in their secrets, or no URLs for one reason and
texts that differ at most in their secrets. -/
def SameTarget (u u' : Url) (a b : String) : Prop :=
  Program.EndAlike lib.SamePublic (fun e e' => e = e' ∧ publicText a = publicText b)
    (lib.join u a) (lib.join u' b)

/-- Two answers that differ at most in the secrets of their redirect targets. -/
inductive SameAnswer (u u' : Url) : Except String Reply → Except String Reply → Prop
  | error (kind : String) : SameAnswer u u' (.error kind) (.error kind)
  | ok (reply : Reply) {a b : Option String} (h : Option.Rel (lib.SameTarget u u') a b) :
      SameAnswer u u' (.ok { reply with location := a }) (.ok { reply with location := b })

end UrlLib

/-- Two servers that answer requests that differ at most in the secrets of their URLs with answers
that differ at most in the secrets of their redirect targets. -/
structure Net.SameButSecrets (lib : UrlLib) (net net' : Net) : Prop where
  proxyError : net.proxyError = net'.proxyError
  buildError : net.buildError = net'.buildError
  display : net.display = net'.display
  answer : ∀ n client headers u u', lib.SamePublic u u' →
    lib.SameAnswer u u' (net.answer n ⟨client, u, headers⟩) (net'.answer n ⟨client, u', headers⟩)

variable {lib : UrlLib} {net net' : Net} {naming : Naming} {settings : Settings}
  {spec : RequestSpec} {env : RunEnv} {r : LinkedRecord} {a b : String} {u u' v v' : Url}

/-! ### What the texts tell -/

theorem errorMessage_probe (h : errorMessage a (.error .probe) = errorMessage b (.error .probe)) :
    a = b := by
  have h : "probe failed: " ++ a = "probe failed: " ++ b := Option.some.inj h
  exact String.append_right_inj _ |>.1 h

namespace ProbeError

theorem eq_of_display_transport (h : (transport a).display = (transport b).display) : a = b := by
  have h : "transport error: " ++ a = "transport error: " ++ b := h
  exact String.append_right_inj _ |>.1 h

theorem display_transport_ne (a : String) (error : RedirectError) :
    (transport a).display ≠ (redirect error).display := by
  intro h
  have h : "transport error: " ++ a = "redirect refused: " ++ error.display := h
  have h := congrArg (fun s : String => s.toList.head?) h
  simp at h

theorem eq_of_display_malformed {e e' : String}
    (h : (redirect (.malformed (debugStr a ++ ": " ++ e))).display =
      (redirect (.malformed (debugStr b ++ ": " ++ e'))).display) : a = b := by
  have h : "redirect refused: " ++ ("malformed redirect target: " ++ (debugStr a ++ ": " ++ e)) =
      "redirect refused: " ++ ("malformed redirect target: " ++ (debugStr b ++ ": " ++ e')) := h
  simp only [String.append_right_inj, String.append_assoc] at h
  exact eq_of_debugStr_append h

end ProbeError

/-! ### Two probes -/

namespace UrlLib.SamePublic

theorem isCrossOrigin_eq (h : lib.SamePublic u u') (hv : lib.SamePublic v v') :
    isCrossOrigin u v = isCrossOrigin u' v' := by
  unfold isCrossOrigin Url.portOrKnownDefault
  rw [h.scheme, h.host, h.port, hv.scheme, hv.host, hv.port]

theorem downloadable_eq (h : lib.SamePublic u u') : u.downloadable = u'.downloadable := by
  unfold Url.downloadable
  rw [h.scheme]

theorem probeRequest_headers (h : lib.SamePublic u u') (hv : lib.SamePublic v v')
    (client : Client) :
    (probeRequest client spec u v).headers = (probeRequest client spec u' v').headers := by
  unfold probeRequest effectiveSpec
  rw [h.isCrossOrigin_eq hv]

end UrlLib.SamePublic

theorem validateUrl_alike (h : lib.SameRequested a b) :
    Program.EndAlike lib.SamePublic (· = ·) (validateUrl lib a) (validateUrl lib b) := by
  unfold UrlLib.SameRequested at h
  unfold validateUrl
  generalize lib.parse a = x at h ⊢
  generalize lib.parse b = y at h ⊢
  cases h with
  | error h => exact .error (by rw [h])
  | ok h =>
    dsimp only
    rw [h.downloadable_eq, h.scheme]
    split_ifs
    · exact .ok h
    · exact .error rfl

theorem hostOf_same (h : lib.SameRequested a b) : Redact.hostOf lib a = Redact.hostOf lib b := by
  unfold UrlLib.SameRequested at h
  unfold Redact.hostOf
  generalize lib.parse a = x at h ⊢
  generalize lib.parse b = y at h ⊢
  cases h with
  | error h => rfl
  | ok h => exact congrArg (·.getD "<unknown>") h.host

/-- Targets that can be joined lead to URLs that differ at most in their secrets. -/
theorem nextUrl_alike {allow : Bool} (hu : lib.SamePublic u u') (h : lib.SameTarget u u' a b)
    (htext : ∀ e e', lib.join u a = .error e → lib.join u' b = .error e' → a = b) :
    Program.EndAlike (fun v v' => lib.SamePublic v v' ∧ nextUrl lib u a allow = .ok v ∧
      nextUrl lib u' b allow = .ok v') (· = ·) (nextUrl lib u a allow)
      (nextUrl lib u' b allow) := by
  unfold UrlLib.SameTarget at h
  unfold nextUrl
  generalize lib.join u a = x at h htext ⊢
  generalize lib.join u' b = y at h htext ⊢
  cases h with
  | error h => exact .error (by rw [h.1, htext _ _ rfl rfl])
  | ok h =>
    dsimp only
    rw [h.downloadable_eq, h.scheme, hu.scheme]
    split_ifs
    · exact .error rfl
    · exact .error rfl
    · exact .ok ⟨h, rfl, rfl⟩

section Probes

variable {start start' : Url}

/-- Two chains at URLs that differ at most in their secrets, after so many requests. -/
structure ChainsAlike (lib : UrlLib) (net net' : Net) (settings : Settings) (spec : RequestSpec)
    (start start' : Url) (n : ℕ) (u u' : Url) : Prop where
  same : lib.SamePublic u u'
  leads : Leads lib net settings spec start n u
  leads' : Leads lib net' settings spec start' n u'

theorem hops_alike (hnet : net.SameButSecrets lib net')
    (htexts : ∀ a b, Reveals lib net settings spec start a →
      Reveals lib net' settings spec start' b → a = b)
    (hstart : lib.SamePublic start start') {n left : ℕ}
    (h : ChainsAlike lib net net' settings spec start start' n u u')
    (hn : n + left + 1 = settings.maxRedirects + 1) :
    HopsAlike lib net net' naming naming settings spec
      (ChainsAlike lib net net' settings spec start start' (n + 1))
      (fun p p' => p.toProbeResult = p'.toProbeResult) (fun e e' => e.display = e'.display)
      start start' n (left ≠ 0) u u' := by
  have hbuild : Client.build net settings spec u = Client.build net' settings spec u' :=
    Client.build_congr hnet.proxyError hnet.buildError h.same.host
  refine ⟨hbuild, fun client hclient => ?_⟩
  have hans := hnet.answer n client (probeRequest client spec start u).headers u u' h.same
  have hreq : (⟨client, u', (probeRequest client spec start u).headers⟩ : Request) =
      probeRequest client spec start' u' := by
    rw [hstart.probeRequest_headers h.same]
    rfl
  rw [hreq] at hans
  change lib.SameAnswer u u' (net.answer n (probeRequest client spec start u)) _ at hans
  have hx : ∀ r, net.answer n (probeRequest client spec start u) = r →
      Answered net settings spec start u n r ⟨probeRequest client spec start u, r⟩ :=
    fun r hr => ⟨client, hclient, hr, rfl⟩
  have hx' : ∀ r, net'.answer n (probeRequest client spec start' u') = r →
      Answered net' settings spec start' u' n r ⟨probeRequest client spec start' u', r⟩ :=
    fun r hr => ⟨client, hbuild ▸ hclient, hr, rfl⟩
  generalize net.answer n (probeRequest client spec start u) = r at hans hx ⊢
  generalize net'.answer n (probeRequest client spec start' u') = r' at hans hx' ⊢
  cases hans with
  | error kind =>
    refine .error ?_
    rw [htexts _ _ (.transport h.leads (hx _ rfl)) (.transport h.leads' (hx' _ rfl))]
  | @ok reply a b hloc =>
    refine .ok rfl rfl (fun hmore hred => ?_) fun chain chain' => ?_
    · have hlt : n < settings.maxRedirects := by omega
      cases hloc with
      | none => exact .none
      | @some a b htarget =>
        refine .some ?_
        have htext : ∀ e e', lib.join u a = .error e → lib.join u' b = .error e' → a = b :=
          fun e e' he he' => htexts _ _ (.target h.leads (hx _ rfl) hred hlt rfl he)
            (.target h.leads' (hx' _ rfl) hred hlt rfl he')
        refine (nextUrl_alike h.same htarget htext).mono ?_ fun e e' he => by rw [he]
        rintro v v' ⟨hsame, hv, hv'⟩
        exact ⟨hsame, .next h.leads (hx _ rfl) hred rfl hlt hv,
          .next h.leads' (hx' _ rfl) hred rfl hlt hv'⟩
    · simp only [interpret, h.same.path]

/-- Two probes that tell the planner, or the user, the same. -/
def ProbesAlike : Except ProbeError ProbeDetails → Except ProbeError ProbeDetails → Prop :=
  Program.EndAlike (fun p p' => p.toProbeResult = p'.toProbeResult)
    fun e e' => e.display = e'.display

theorem ProbesAlike.symm {p p' : Except ProbeError ProbeDetails} (h : ProbesAlike p p') :
    ProbesAlike p' p :=
  (Program.EndAlike.symm h).mono (fun _ _ h => h.symm) fun _ _ h => h.symm

theorem probe_alike (hnet : net.SameButSecrets lib net') (hurl : lib.SameRequested a b)
    (htexts : ∀ start start' s s', validateUrl lib a = .ok start → validateUrl lib b = .ok start' →
      Reveals lib net settings spec start s → Reveals lib net' settings spec start' s' → s = s') :
    ProbesAlike ((probe lib net naming settings spec false a).runFrom []).1
      ((probe lib net' naming settings spec false b).runFrom []).1 := by
  have hvalid := validateUrl_alike hurl
  unfold probe
  generalize validateUrl lib a = x at hvalid htexts ⊢
  generalize validateUrl lib b = y at hvalid htexts ⊢
  cases hvalid with
  | error h => exact .error (by rw [h])
  | @ok start start' h =>
    have hinit : ChainsAlike lib net net' settings spec start start' ([] : List Exchange).length
        start start' := ⟨h, .start, .start⟩
    exact (follow_alike (E := fun e e' => e.display = e'.display) (fun _ => rfl)
      (fun n left u u' => hops_alike hnet (fun s s' => htexts start start' s s' rfl rfl) h) rfl
      (Nat.zero_add _) hinit).1

/-- A probe fails as the hop at the end of its chain does. -/
theorem probe_of_hop {n : ℕ} {error : ProbeError} (hstart : validateUrl lib a = .ok start)
    (h : Leads lib net settings spec start n u)
    (herr : ∀ chain t left, t.length = n → n + left = settings.maxRedirects →
      ((hop lib net naming settings spec false start left u chain).runFrom t).1 = .error error) :
    ((probe lib net naming settings spec false a).runFrom []).1 = .error error := by
  obtain ⟨chain, t, hlen, hle, heq⟩ := exists_follow naming false h
  have hleft : settings.maxRedirects + 1 - n = settings.maxRedirects - n + 1 := by omega
  have hhop := herr chain t (settings.maxRedirects - n) hlen (by omega)
  unfold probe
  rw [hstart]
  dsimp only
  rw [heq, hleft, follow, Program.runFrom_bind]
  generalize (hop lib net naming settings spec false start _ u chain).runFrom t = res at hhop ⊢
  obtain ⟨r, t'⟩ := res
  obtain rfl : r = .error error := hhop
  rfl

theorem Reveals.probe {text : String} (hstart : validateUrl lib a = .ok start)
    (h : Reveals lib net settings spec start text) :
    ∃ error, ((SwiftLoad.probe lib net naming settings spec false a).runFrom []).1 = .error error ∧
      (error = .transport text ∨
        ∃ e, error = .redirect (.malformed (debugStr text ++ ": " ++ e))) := by
  cases h with
  | transport h hx =>
    obtain ⟨client, hbuild, hans, -⟩ := hx
    refine ⟨_, probe_of_hop hstart h fun chain t left hlen hleft => ?_, .inl rfl⟩
    rw [← hlen] at hans
    unfold hop ask
    simp only [hbuild, Program.runFrom_bind, Net.send, Program.runFrom_modifyGet, hans]
    rfl
  | @target n u reply x location error h hx hred hn hloc hjoin =>
    obtain ⟨client, hbuild, hans, -⟩ := hx
    refine ⟨_, probe_of_hop hstart h fun chain t left hlen hleft => ?_, .inr ⟨error, rfl⟩⟩
    have hmore : left ≠ 0 := by omega
    rw [← hlen] at hans
    unfold hop ask
    simp only [hbuild, Program.runFrom_bind, Net.send, Program.runFrom_modifyGet, hans,
      Program.runFrom_pure, hred, if_true, if_neg hmore, hloc, nextUrl, hjoin]
    rfl

end Probes

/-! ### Two runs -/

/-- What a run can store depends on how its probe ends, the host and nothing else of the network. -/
theorem stores_of_alike
    (hprobe : ProbesAlike ((probe lib net naming settings spec false a).runFrom []).1
      ((probe lib net' naming settings spec false b).runFrom []).1)
    (hhost : Redact.hostOf lib a = Redact.hostOf lib b) {m : Option String}
    (h : RunStores lib net naming settings spec env { r with currentUrl := a } m) :
    RunStores lib net' naming settings spec env { r with currentUrl := b } m := by
  generalize hb : ((probe lib net' naming settings spec false b).runFrom []).1 = y at hprobe
  cases h with
  | probe herr =>
    dsimp only at herr
    rw [herr] at hprobe
    cases hprobe with
    | error he =>
      rw [he]
      exact .probe hb
  | ran hpr hd =>
    dsimp only at hpr
    rw [hpr] at hprobe
    cases hprobe with
    | ok he =>
      dsimp only at hd
      rw [he, hhost] at hd
      exact .ran hb hd

/-- Runs that store the same messages reveal the same texts. -/
theorem eq_of_stores {start start' : Url} {s s' : String}
    (h : ∀ m, RunStores lib net naming settings spec env { r with currentUrl := a } m ↔
      RunStores lib net' naming settings spec env { r with currentUrl := b } m)
    (hstart : validateUrl lib a = .ok start) (hstart' : validateUrl lib b = .ok start')
    (hs : Reveals lib net settings spec start s) (hs' : Reveals lib net' settings spec start' s') :
    s = s' := by
  obtain ⟨error, herr, htext⟩ : ∃ error,
    ((probe lib net naming settings spec false a).runFrom []).1 = .error error ∧ _ :=
      hs.probe hstart
  obtain ⟨error', herr', htext'⟩ : ∃ error,
    ((probe lib net' naming settings spec false b).runFrom []).1 = .error error ∧ _ :=
      hs'.probe hstart'
  have hstores := (h _).1 (.probe herr)
  have hdisplay : error.display = error'.display := by
    generalize hm : errorMessage error.display (.error .probe) = m at hstores
    cases hstores with
    | probe hprobe =>
      dsimp only at hprobe
      rw [herr'] at hprobe
      cases hprobe
      exact errorMessage_probe hm
    | ran hprobe hd =>
      dsimp only at hprobe
      rw [herr'] at hprobe
      cases hprobe
  rcases htext with rfl | ⟨e, rfl⟩
  · rcases htext' with rfl | ⟨e', rfl⟩
    · exact ProbeError.eq_of_display_transport hdisplay
    · exact absurd hdisplay (ProbeError.display_transport_ne _ _)
  · rcases htext' with rfl | ⟨e', rfl⟩
    · exact absurd hdisplay.symm (ProbeError.display_transport_ne _ _)
    · exact ProbeError.eq_of_display_malformed hdisplay

/-- **Error messages are public exactly when the texts that the server can put into them are.**  For
two runs that differ only in query values, userinfo and fragments of the URL requested and of the
redirect targets received: they can store the same messages if and only if no transport error and
no redirect target that cannot be joined tells them apart. -/
theorem diagnostics_public_iff (lib : UrlLib) (net net' : Net) (naming : Naming)
    (settings : Settings) (spec : RequestSpec) (env : RunEnv) (r : LinkedRecord) (a b : String)
    (hnet : net.SameButSecrets lib net') (hurl : lib.SameRequested a b) :
    (∀ m, RunStores lib net naming settings spec env { r with currentUrl := a } m ↔
      RunStores lib net' naming settings spec env { r with currentUrl := b } m) ↔
    ∀ start start' s s', validateUrl lib a = .ok start → validateUrl lib b = .ok start' →
      Reveals lib net settings spec start s → Reveals lib net' settings spec start' s' →
        s = s' := by
  constructor
  · intro h start start' s s' hstart hstart' hs hs'
    exact eq_of_stores h hstart hstart' hs hs'
  · intro htexts m
    have hprobe : ProbesAlike ((probe lib net naming settings spec false a).runFrom []).1
        ((probe lib net' naming settings spec false b).runFrom []).1 :=
      probe_alike hnet hurl htexts
    have hhost := hostOf_same hurl
    exact ⟨stores_of_alike hprobe hhost, stores_of_alike hprobe.symm hhost.symm⟩

/-- A library that refuses two targets that differ in a signature. -/
def signedLib : UrlLib := .ofTable
  [("https://ex.com/f", .ok { scheme := "https", host := some "ex.com", path := "/f" }),
    ("http://[bad?sig=AAA", .error "invalid IPv6 address"),
    ("http://[bad?sig=BBB", .error "invalid IPv6 address")] []

/-- A server that redirects everyone to a target. -/
def signedNet (location : String) : Net where
  proxyError _ := none
  buildError _ := none
  answer _ _ := .ok { status := 302, body := [], location := some location }
  display kind _ := kind

theorem signedNet_same :
    (signedNet "http://[bad?sig=AAA").SameButSecrets signedLib
      (signedNet "http://[bad?sig=BBB") where
  proxyError := rfl
  buildError := rfl
  display := rfl
  answer _ _ _ u u' _ := .ok { status := 302, body := [] } (.some (.error ⟨rfl, by decide⟩))

theorem signedLib_same : signedLib.SameRequested "https://ex.com/f" "https://ex.com/f" :=
  .ok ⟨rfl, rfl, rfl, rfl, rfl, rfl⟩

/-- A machine without history. -/
def freshEnv : RunEnv where
  hostProfile _ := none
  expectedSha256 := none
  available := u64Max
  existing := none
  ioError := ""

theorem diagnostics_public_signed :
    (∀ m, RunStores signedLib (signedNet "http://[bad?sig=AAA") (fun _ _ _ => ['f']) {} {} freshEnv
        { id := 0, filename := ['f'], destDir := [], originalUrl := "https://ex.com/f"
          finalUrl := "https://ex.com/f", currentUrl := "https://ex.com/f" } m ↔
      RunStores signedLib (signedNet "http://[bad?sig=BBB") (fun _ _ _ => ['f']) {} {} freshEnv
        { id := 0, filename := ['f'], destDir := [], originalUrl := "https://ex.com/f"
          finalUrl := "https://ex.com/f", currentUrl := "https://ex.com/f" } m) ↔
    ∀ start start' s s', validateUrl signedLib "https://ex.com/f" = .ok start →
      validateUrl signedLib "https://ex.com/f" = .ok start' →
      Reveals signedLib (signedNet "http://[bad?sig=AAA") {} {} start s →
      Reveals signedLib (signedNet "http://[bad?sig=BBB") {} {} start' s' → s = s' :=
  diagnostics_public_iff signedLib _ _ _ {} {} freshEnv
    { id := 0, filename := ['f'], destDir := [], originalUrl := "https://ex.com/f"
      finalUrl := "https://ex.com/f", currentUrl := "" } _ _ signedNet_same signedLib_same

/-- The signature of a target that is no URL is stored. -/
theorem diagnostics_tell_signature :
    ¬∀ (lib : UrlLib) (net net' : Net) (naming : Naming) (settings : Settings) (spec : RequestSpec)
      (env : RunEnv) (r : LinkedRecord) (a b : String), net.SameButSecrets lib net' →
      lib.SameRequested a b → ∀ m,
        RunStores lib net naming settings spec env { r with currentUrl := a } m ↔
          RunStores lib net' naming settings spec env { r with currentUrl := b } m := by
  intro h
  have hstores := h signedLib _ _ (fun _ _ _ => ['f']) {} {} freshEnv
    { id := 0, filename := ['f'], destDir := [], originalUrl := "https://ex.com/f"
      finalUrl := "https://ex.com/f", currentUrl := "" } _ _ signedNet_same signedLib_same
  have hstart : validateUrl signedLib "https://ex.com/f" =
      .ok { scheme := "https", host := some "ex.com", path := "/f" } := rfl
  have hreveals : ∀ location,
      (signedLib.join · location) = (fun _ => .error "invalid IPv6 address") →
      Reveals signedLib (signedNet location) {} {}
        { scheme := "https", host := some "ex.com", path := "/f" } location :=
    fun location hjoin => .target .start ⟨_, rfl, rfl, rfl⟩ rfl (by decide) rfl (congrFun hjoin _)
  have heq := eq_of_stores hstores hstart hstart (hreveals _ rfl) (hreveals _ rfl)
  exact absurd heq (by decide)

end SwiftLoad
