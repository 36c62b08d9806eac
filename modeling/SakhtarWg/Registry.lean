import SakhtarWg.Counters
import SakhtarWg.Names

/-!
# The metrics registry

What the daemon reports about itself: the setters bound the names they are given, and the
exposition folds egress names against the tunnels that were reported last. A sample is a name
with labels and a value; the text has one line for each sample. Amounts that the source keeps as
floating point numbers are integers here. A string stands for its bytes, one character each.
-/

namespace SakhtarWg.Observability
open Counters Text

/-! ## Bounding names -/

/-- The parts between the bars, filled up or cut off to the given number. -/
def fixedParts (value : String) (count : ℕ) : List String :=
  let parts := (splitOn '|' value.toList).map String.ofList
  (parts ++ List.replicate (count - parts.length) "").take count

def enum (value : String) (allowed : List String) : String :=
  if value ∈ allowed then value else "other"

/-- Bounds an egress label to the shape a configured tunnel name can take. -/
def egressIdentity (value : String) : String :=
  if value = "" then "direct"
  else if 64 < value.length then "other"
  else if value.toList.all nameChar then value
  else "other"

def boundedOutcome (value : String) : String :=
  enum value ["success", "failure", "completed", "canceled", "error", "ok", "degraded", "skipped",
    "rejected"]

def allowedComponents : List String :=
  ["config", "proxy", "listeners", "kernel", "firewall", "health", "dns", "route_source", "pfsync",
    "list_server", "management"]

/-! ## Snapshots -/

structure ProxySnapshot where
  active : ℤ
  accepted : ℕ
  rejected : AList fun _ : String => ℕ
  completed : AList fun _ : String => ℕ
  durationSeconds : AList fun _ : String => ℤ
  clientBytes : AList fun _ : String => ℕ
  backendBytes : AList fun _ : String => ℕ
  connectAttempts : AList fun _ : String => ℕ

/-- A resolution counter is its count and its total duration. -/
structure DNSSnapshot where
  entriesPositive : ℤ
  entriesNegative : ℤ
  evictionsPositive : ℕ
  evictionsNegative : ℕ
  pending : ℤ
  rejectedPending : ℕ
  requests : AList fun _ : String => ℕ
  resolutions : AList fun _ : String => ℕ × ℤ

structure WGSnapshot where
  tunnel : String
  signal : String
  handshakeAge : ℤ
  receiveBytes : ℤ
  transmitBytes : ℤ

structure GroupSnapshot where
  name : String
  state : String
  reason : String

/-- Times are seconds, absent for the zero time. -/
structure ProbeSnapshot where
  tunnel : String
  observedAt : Option ℤ
  success : Bool
  durationSecond : ℤ

structure RouteSourceSnapshot where
  name : String
  lastSuccess : Option ℤ
  lastOutcome : String
  prefixCount : ℤ

/-- Of a component only its readiness is exposed. -/
structure Registry where
  generation : ℕ
  reload : AList fun _ : String => ℕ
  reloadTime : AList fun _ : String => ℤ
  components : AList fun _ : String => Bool
  kernelDrift : ℤ
  firewallDrift : ℤ
  proxy : ProxySnapshot
  dns : DNSSnapshot
  wg : AList fun _ : String => WGSnapshot
  groups : AList fun _ : String => GroupSnapshot
  probes : AList fun _ : String => ProbeSnapshot
  routes : AList fun _ : String => RouteSourceSnapshot
  pfSync : AList fun _ : String => ℕ
  kernelRepair : AList fun _ : String => ℕ

def newRegistry : Registry where
  generation := 0
  reload := ∅
  reloadTime := ∅
  components := ∅
  kernelDrift := 0
  firewallDrift := 0
  proxy := ⟨0, 0, ∅, ∅, ∅, ∅, ∅, ∅⟩
  dns := ⟨0, 0, 0, 0, 0, 0, ∅, ∅⟩
  wg := ∅
  groups := ∅
  probes := ∅
  routes := ∅
  pfSync := ∅
  kernelRepair := ∅

/-! ## Setters -/

/-- The amounts of a map, each added under the new name of its key. -/
def regroup {M : Type} [AddCommMonoid M] (f : String → String) (m : AList fun _ : String => M) :
    AList fun _ : String => M :=
  gather (fun e => f e.1) (fun e => e.2) ∅ m.entries

def rejectionReasons : List String :=
  ["source_denied", "parse_error", "destination_denied", "overload", "dial_error"]

def sessionOutcome (key : String) : String := enum key ["completed", "canceled", "error"]

def boundedRejection (key : String) : String :=
  let parts := fixedParts key 3
  "|".intercalate [enum (parts.getD 0 "") ["tls", "http"],
    enum (parts.getD 1 "") rejectionReasons,
    enum (parts.getD 2 "") ["loopback", "non_loopback"]]

def boundedConnect (key : String) : String :=
  let parts := fixedParts key 3
  enum (parts.getD 0 "") ["success", "failure"] ++ "|" ++
    enum (parts.getD 1 "") ["direct", "marked"] ++ "|" ++ egressIdentity (parts.getD 2 "")

def normalizeProxy (value : ProxySnapshot) : ProxySnapshot where
  active := value.active
  accepted := value.accepted
  rejected := regroup boundedRejection value.rejected
  completed := regroup sessionOutcome value.completed
  durationSeconds := regroup sessionOutcome value.durationSeconds
  clientBytes := regroup sessionOutcome value.clientBytes
  backendBytes := regroup sessionOutcome value.backendBytes
  connectAttempts := regroup boundedConnect value.connectAttempts

def requestKinds : List String := ["hit", "miss", "stale", "negative", "refresh", "rejection"]

def resolutionKinds : List String := ["positive", "nxdomain", "nodata", "transient"]

def boundedResolution (key : String) : String :=
  let parts := fixedParts key 2
  enum (parts.getD 0 "") resolutionKinds ++ "|" ++ egressIdentity (parts.getD 1 "")

namespace Registry

def setActiveGeneration (r : Registry) (g : ℕ) : Registry := { r with generation := g }

def recordReload (r : Registry) (outcome : String) (duration : ℤ) : Registry :=
  let outcome := boundedOutcome outcome
  { r with
    reload := add r.reload outcome 1
    reloadTime := add r.reloadTime outcome (max duration 0) }

def setComponent (r : Registry) (name : String) (ready : Bool) : Registry :=
  let name := if name ∈ allowedComponents then name else "config"
  { r with components := r.components.insert name ready }

def setDrift (r : Registry) (kernel firewall : ℤ) : Registry :=
  { r with kernelDrift := max kernel 0, firewallDrift := max firewall 0 }

def setProxy (r : Registry) (snapshot : ProxySnapshot) : Registry :=
  { r with proxy := normalizeProxy snapshot }

def setDNS (r : Registry) (snapshot : DNSSnapshot) : Registry :=
  { r with dns := { snapshot with
      requests := regroup (fun key => enum key requestKinds) snapshot.requests
      resolutions := regroup boundedResolution snapshot.resolutions } }

def setWG (r : Registry) (snapshots : List WGSnapshot) : Registry :=
  { r with wg := snapshots.foldl (fun m snapshot => m.insert snapshot.tunnel snapshot) ∅ }

def groupStates : List String := ["ready", "degraded", "failed"]

def groupReasons : List String :=
  ["recent_handshake", "recent_handshake_probe_passing",
    "probe_failing_fail_open_recent_handshake", "no_recent_handshake_fail_open_primary"]

def setGroups (r : Registry) (snapshots : List GroupSnapshot) : Registry :=
  { r with groups := snapshots.foldl (fun m snapshot => m.insert snapshot.name
      { snapshot with
        state := enum snapshot.state groupStates
        reason := enum snapshot.reason groupReasons }) ∅ }

def setProbe (r : Registry) (snapshot : ProbeSnapshot) : Registry :=
  let tunnel := if snapshot.tunnel = "" then "default" else snapshot.tunnel
  { r with probes := r.probes.insert tunnel { snapshot with tunnel := tunnel } }

/-- A failed refresh keeps the time of the last success and the last known count. -/
def setRouteSource (r : Registry) (snapshot : RouteSourceSnapshot) : Registry :=
  if snapshot.name = "" then r
  else
    let outcome := boundedOutcome snapshot.lastOutcome
    let previous := (r.routes.lookup snapshot.name).getD ⟨"", none, "", 0⟩
    let snapshot : RouteSourceSnapshot := { snapshot with lastOutcome := outcome }
    let snapshot := if snapshot.lastSuccess = none then
        { snapshot with
          lastSuccess := previous.lastSuccess
          prefixCount :=
            if snapshot.prefixCount = 0 then previous.prefixCount else snapshot.prefixCount }
      else snapshot
    { r with routes := r.routes.insert snapshot.name snapshot }.setComponent "route_source"
      (outcome = "success")

def recordPfSync (r : Registry) (outcome : String) : Registry :=
  let outcome := boundedOutcome outcome
  { r with pfSync := add r.pfSync outcome 1 }.setComponent "pfsync"
    (outcome = "success" ∨ outcome = "skipped")

def recordKernelRepair (r : Registry) (outcome : String) : Registry :=
  { r with kernelRepair := add r.kernelRepair (boundedOutcome outcome) 1 }

end Registry

/-! ## The exposition -/

structure Sample where
  name : String
  labels : List (String × String)
  value : ℤ
  deriving DecidableEq

/-- What the process reads of itself while it writes. -/
structure Process where
  uptime : ℤ
  goroutines : ℤ
  heapBytes : ℕ
  openFDs : Option ℤ
  now : ℤ

def sortedKeys {V : Type} (m : AList fun _ : String => V) : List String := sortStrings m.keys

namespace Registry
variable (r : Registry) (process : Process)

def processSamples : List Sample :=
  [⟨"sakhtar_wg_active_generation", [], r.generation⟩,
    ⟨"sakhtar_wg_process_uptime_seconds", [], process.uptime⟩,
    ⟨"sakhtar_wg_process_goroutines", [], process.goroutines⟩,
    ⟨"sakhtar_wg_process_heap_bytes", [], process.heapBytes⟩] ++
  match process.openFDs with
  | some fds => [⟨"sakhtar_wg_process_open_fds", [], fds⟩]
  | none => []

def reloadSamples : List Sample :=
  (sortedKeys r.reload).flatMap fun outcome =>
    [⟨"sakhtar_wg_reload_attempts_total", [("outcome", outcome)], (valueAt r.reload outcome : ℕ)⟩,
      ⟨"sakhtar_wg_reload_duration_seconds_sum", [("outcome", outcome)],
        valueAt r.reloadTime outcome⟩]

def componentSamples : List Sample :=
  (sortedKeys r.components).map fun name =>
    ⟨"sakhtar_wg_component_ready", [("component", name)],
      if (r.components.lookup name).getD false then 1 else 0⟩

def gaugeSamples : List Sample :=
  [⟨"sakhtar_wg_kernel_drift", [], r.kernelDrift⟩,
    ⟨"sakhtar_wg_firewall_drift", [], r.firewallDrift⟩,
    ⟨"sakhtar_wg_proxy_sessions_active", [], r.proxy.active⟩,
    ⟨"sakhtar_wg_proxy_sessions_accepted_total", [], r.proxy.accepted⟩]

def rejectedSamples : List Sample :=
  (sortedKeys r.proxy.rejected).map fun key =>
    let parts := fixedParts key 3
    ⟨"sakhtar_wg_proxy_sessions_rejected_total",
      [("protocol", enum (parts.getD 0 "") ["tls", "http"]),
        ("reason", enum (parts.getD 1 "") rejectionReasons),
        ("listener_class", enum (parts.getD 2 "") ["loopback", "non_loopback"])],
      (valueAt r.proxy.rejected key : ℕ)⟩

def sessionSamples : List Sample :=
  ["completed", "canceled", "error", "other"].flatMap fun outcome =>
    match r.proxy.completed.lookup outcome with
    | none => []
    | some total =>
      [⟨"sakhtar_wg_proxy_sessions_completed_total", [("outcome", outcome)], total⟩,
        ⟨"sakhtar_wg_proxy_session_duration_seconds_sum", [("outcome", outcome)],
          valueAt r.proxy.durationSeconds outcome⟩,
        ⟨"sakhtar_wg_proxy_client_bytes_total", [("outcome", outcome)],
          (valueAt r.proxy.clientBytes outcome : ℕ)⟩,
        ⟨"sakhtar_wg_proxy_backend_bytes_total", [("outcome", outcome)],
          (valueAt r.proxy.backendBytes outcome : ℕ)⟩]

/-- Egress labels are folded against the tunnels the daemon actually reported. -/
def knownEgress (value : String) : String :=
  if value = "direct" then value
  else if value ∈ r.wg then value
  else "other"

def connectSeries : AList fun _ : String => ℕ :=
  regroup (fun key =>
    let parts := fixedParts key 3
    parts.getD 0 "" ++ "|" ++ parts.getD 1 "" ++ "|" ++ r.knownEgress (parts.getD 2 ""))
    r.proxy.connectAttempts

def connectSamples : List Sample :=
  (sortedKeys r.connectSeries).map fun key =>
    let parts := fixedParts key 3
    ⟨"sakhtar_wg_proxy_backend_connect_attempts_total",
      [("outcome", parts.getD 0 ""), ("egress_class", parts.getD 1 ""),
        ("egress", parts.getD 2 "")],
      (valueAt r.connectSeries key : ℕ)⟩

def cacheSamples : List Sample :=
  [⟨"sakhtar_wg_dns_cache_entries", [("class", "positive")], r.dns.entriesPositive⟩,
    ⟨"sakhtar_wg_dns_cache_entries", [("class", "negative")], r.dns.entriesNegative⟩,
    ⟨"sakhtar_wg_dns_cache_evictions_total", [("class", "positive")], r.dns.evictionsPositive⟩,
    ⟨"sakhtar_wg_dns_cache_evictions_total", [("class", "negative")], r.dns.evictionsNegative⟩,
    ⟨"sakhtar_wg_dns_pending", [], r.dns.pending⟩,
    ⟨"sakhtar_wg_dns_pending_rejected_total", [], r.dns.rejectedPending⟩]

def requestSamples : List Sample :=
  (sortedKeys r.dns.requests).map fun result =>
    ⟨"sakhtar_wg_dns_requests_total", [("result", enum result requestKinds)],
      (valueAt r.dns.requests result : ℕ)⟩

def resolutionSeries : AList fun _ : String => ℕ × ℤ :=
  regroup (fun key =>
    let parts := fixedParts key 2
    parts.getD 0 "" ++ "|" ++ r.knownEgress (egressIdentity (parts.getD 1 "")))
    r.dns.resolutions

def resolutionSamples : List Sample :=
  (sortedKeys r.resolutionSeries).flatMap fun key =>
    let parts := fixedParts key 2
    let labels := [("outcome", enum (parts.getD 0 "") resolutionKinds),
      ("egress_class", if parts.getD 1 "" = "direct" then "direct" else "marked"),
      ("egress", parts.getD 1 "")]
    [⟨"sakhtar_wg_dns_resolutions_total", labels, (valueAt r.resolutionSeries key).1⟩,
      ⟨"sakhtar_wg_dns_resolution_duration_seconds_sum", labels,
        (valueAt r.resolutionSeries key).2⟩]

def signals : List String := ["recent", "idle_unknown", "failed"]

def wgSamples : List Sample :=
  (sortedKeys r.wg).flatMap fun name =>
    match r.wg.lookup name with
    | none => []
    | some snapshot =>
      [⟨"sakhtar_wg_wg_handshake_age_seconds", [("tunnel", name)], snapshot.handshakeAge⟩,
        ⟨"sakhtar_wg_wg_receive_bytes", [("tunnel", name)], snapshot.receiveBytes⟩,
        ⟨"sakhtar_wg_wg_transmit_bytes", [("tunnel", name)], snapshot.transmitBytes⟩,
        ⟨"sakhtar_wg_wg_session_recent",
          [("tunnel", name), ("state", enum snapshot.signal signals)], 1⟩]

def groupSamples : List Sample :=
  (sortedKeys r.groups).flatMap fun name =>
    match r.groups.lookup name with
    | none => []
    | some snapshot =>
      [⟨"sakhtar_wg_group_policy_state",
        [("group", name), ("state", snapshot.state), ("reason", snapshot.reason)], 1⟩]

def probeSamples : List Sample :=
  (sortedKeys r.probes).flatMap fun name =>
    match r.probes.lookup name with
    | none => []
    | some snapshot =>
      match snapshot.observedAt with
      | none => []
      | some at_ =>
        [⟨"sakhtar_wg_active_probe_success", [("tunnel", name)],
            if snapshot.success then 1 else 0⟩,
          ⟨"sakhtar_wg_active_probe_duration_seconds", [("tunnel", name)],
            snapshot.durationSecond⟩,
          ⟨"sakhtar_wg_active_probe_timestamp_seconds", [("tunnel", name)], at_⟩]

def routeSamples : List Sample :=
  (sortedKeys r.routes).flatMap fun name =>
    match r.routes.lookup name with
    | none => []
    | some snapshot =>
      ⟨"sakhtar_wg_route_source_prefixes", [("source", name)], snapshot.prefixCount⟩ ::
      match snapshot.lastSuccess with
      | none => []
      | some at_ =>
        [⟨"sakhtar_wg_route_source_last_success_timestamp_seconds", [("source", name)], at_⟩,
          ⟨"sakhtar_wg_route_source_last_success_age_seconds", [("source", name)],
            max (process.now - at_) 0⟩]

def pfSyncSamples : List Sample :=
  (sortedKeys r.pfSync).map fun outcome =>
    ⟨"sakhtar_wg_pfsync_reconcile_total", [("outcome", outcome)], (valueAt r.pfSync outcome : ℕ)⟩

def kernelRepairSamples : List Sample :=
  (sortedKeys r.kernelRepair).map fun outcome =>
    ⟨"sakhtar_wg_kernel_repair_total", [("outcome", outcome)], (valueAt r.kernelRepair outcome : ℕ)⟩

/-- The samples of `WritePrometheus`, in order. -/
def samples : List Sample :=
  r.processSamples process ++ r.reloadSamples ++ r.componentSamples ++ r.gaugeSamples ++
  r.rejectedSamples ++ r.sessionSamples ++ r.connectSamples ++ r.cacheSamples ++
  r.requestSamples ++ r.resolutionSamples ++ r.wgSamples ++ r.groupSamples ++ r.probeSamples ++
  r.routeSamples process ++ r.pfSyncSamples ++ r.kernelRepairSamples

end Registry

/-! ### The text -/

def escapeChar (c : Char) : List Char :=
  if c = '\\' then ['\\', '\\']
  else if c = '\n' then ['\\', 'n']
  else if c = '"' then ['\\', '"']
  else [c]

/-- One label, name and quoted value. -/
def labelText (label : String × String) : List Char :=
  label.1.toList ++ '=' :: '"' :: label.2.toList.flatMap escapeChar ++ ['"']

def labels : List (String × String) → List Char
  | [] => []
  | first :: rest =>
    '\x7b' :: labelText first ++ rest.flatMap (fun label => ',' :: labelText label) ++ ['\x7d']

/-- The series a sample belongs to, as its line spells it. -/
def Sample.series (s : Sample) : List Char := s.name.toList ++ Observability.labels s.labels

def Sample.line (s : Sample) : List Char := s.series ++ ' ' :: (toString s.value).toList

def Registry.writePrometheus (r : Registry) (process : Process) : List Char :=
  (r.samples process).flatMap fun s => s.line ++ ['\n']

end SakhtarWg.Observability
