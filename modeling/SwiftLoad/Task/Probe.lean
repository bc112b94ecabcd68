import SwiftLoad.Config
import SwiftLoad.Util.Filename

/-!
# What a probe learns

The part of `task/probe.rs` that the engine decides by, and the starting connection count
(`initial_conns` of `task/mod.rs`).
-/

namespace SwiftLoad

/-- `RangeSupport`. -/
inductive RangeSupport
  | unknown
  /-- Verified: the server answered a ranged request with 206 and a matching `Content-Range`. -/
  | supported
  /-- Verified absent. -/
  | unsupported
  /-- Advertised support, then ignored a range mid-download. -/
  | lied
deriving DecidableEq, Repr

/-- What we learned about the resource. -/
structure ProbeResult where
  filename : Name
  totalSize : Option ℕ
  rangeSupport : RangeSupport
  /-- The server transforms the body, so byte offsets are meaningless and the download must run as
  a single stream. -/
  transformingEncoding : Bool
deriving DecidableEq

/-- `is_resumable`. -/
def ProbeResult.isResumable (pr : ProbeResult) : Bool :=
  decide (pr.rangeSupport = .supported) && !pr.transformingEncoding

/-- What a previous download from this host learned. -/
structure HostHint where
  bestConns : Option ℕ
  saturated : Bool
deriving DecidableEq, Repr

/-- Downloads from here on start with four connections. -/
def largeFile : ℕ := 32 * 1024 * 1024

/-- The starting count before the caps are applied. -/
def baseConns (size : ℕ) (overrideK : Option ℕ) (hint : Option HostHint) : ℕ :=
  match overrideK with
  | some k => k
  | none =>
    match hint with
    | some h =>
      match h.bestConns.filter fun _ => decide (largeFile ≤ size) with
      | some k => if h.saturated then min k 4 else k
      | none => if size < largeFile then 2 else 4
    | none => if size < largeFile then 2 else 4

/-- `initial_conns`: choose the starting connection count. -/
def initialConns (pr : ProbeResult) (settings : Settings) (overrideK : Option ℕ)
    (hint : Option HostHint) : ℕ :=
  if pr.isResumable = false then 1 -- cannot segment without working ranges
  else
    match pr.totalSize with
    | none => 1 -- cannot plan without a size
    | some size =>
      if size < smallFileThreshold then 1 -- handshakes cost more than they save
      else
        let bySize := max (size / minSegment) 1
        let ceiling := overrideK.getD settings.maxConnsPerDownload
        max (min (min (min (baseConns size overrideK hint) bySize) ceiling)
          settings.maxTotalConns) 1

/-- A download that cannot be split starts with one connection. -/
theorem initialConns_eq_one {pr : ProbeResult} (h : pr.isResumable = false ∨ pr.totalSize = none)
    (settings : Settings) (overrideK : Option ℕ) (hint : Option HostHint) :
    initialConns pr settings overrideK hint = 1 := by
  unfold initialConns
  split_ifs with hr
  · rfl
  · rcases h with h | h
    · exact absurd h hr
    · rw [h]

theorem one_le_initialConns (pr : ProbeResult) (settings : Settings) (overrideK : Option ℕ)
    (hint : Option HostHint) : 1 ≤ initialConns pr settings overrideK hint := by
  unfold initialConns
  split_ifs
  · exact le_rfl
  · split
    · exact le_rfl
    · split_ifs
      · exact le_rfl
      · exact le_max_right _ _

end SwiftLoad
