import SakhtarWg.GatewayConfig
import SakhtarWg.Machine
import SakhtarWg.RouteUpdater

/-!
# The configuration of the main loop

Three writers assign the configuration the main loop holds: the start, an accepted
reload and a route refresh. The first two compile the gateway policy before they
assign, the refresh assigns whatever it merged.
-/

namespace SakhtarWg
open Text Netip Fallible Firewall Machine

def reloadRequiresRestart (old next : Config) : Except String Unit := do
  require (old.management = next.management)
    "management listener settings changed; restart required"
  require (old.proxy.httpsListen = next.proxy.httpsListen &&
      old.proxy.httpListen = next.proxy.httpListen)
    "proxy listener addresses changed; restart required"
  require (listOf old = listOf next) "gateway list listener changed; restart required"
where
  listOf (c : Config) : String := if c.gateway.enabled then c.gateway.listListen else ""

/-- The gateway check at the start; a refusal ends the process. -/
def gatewayPreflight (c : Config) : Except String Unit :=
  if c.gateway.enabled then do
    let _ ← compileGatewayRuleset c
  else .ok ()

/-- What `applyReload` checks of the candidate before it touches the kernel. -/
def reloadPreflight (next : Config) : Except String Unit := do
  (gatewayPreflight next).mapError fun e => "candidate gateway policy: " ++ e
  let _ ← (compileEgressGuardRuleset next).mapError fun e => "candidate egress guard: " ++ e

structure LoopState where
  cfg : Config
  updater : Option RouteUpdater

/-- What reaches the main loop, and the fetches of the updater in between. A reload carries the
decoded file, whether everything outside the configuration went well, and what the disk cache
holds in case an updater is started. -/
inductive LoopEvent
  | fetched (source format body : String)
  | refresh
  | reload (decoded : Config) (applied : Bool) (cache : String → List String)
  | tick

/-- An updater over a configuration with the sets its disk cache holds. -/
def newRouteUpdater (base : Config) (cache : String → List String) : RouteUpdater :=
  ⟨base, fun source => sortDedup (cache source)⟩

/-- An updater runs when some tunnel has sources or the mirror is enabled. -/
def startUpdater (c : Config) (cache : String → List String) : Option RouteUpdater :=
  if needsRouteUpdater c then some (newRouteUpdater c cache) else none

def LoopState.start (c : Config) (cache : String → List String) : LoopState :=
  ⟨c, startUpdater c cache⟩

/-- The candidate of a reload: the file with the last good routes folded in. -/
def LoopState.candidate (s : LoopState) (newCfg : Config) : Config :=
  match s.updater with
  | some u => u.mergeBase newCfg
  | none => newCfg

def LoopState.commit (s : LoopState) (newCfg : Config) (cache : String → List String) :
    LoopState :=
  ⟨s.candidate newCfg, match s.updater with
    | some u => some (u.setBase newCfg)
    | none => startUpdater newCfg cache⟩

section
variable (x : External) (decode : String → Except String (List String))

/-- A reload that is refused anywhere keeps the current configuration. -/
def LoopState.reload (s : LoopState) (decoded : Config) (applied : Bool)
    (cache : String → List String) : LoopState :=
  match decoded.parse x with
  | .error _ => s
  | .ok newCfg =>
    match reloadRequiresRestart s.cfg newCfg, reloadPreflight (s.candidate newCfg) with
    | .ok _, .ok _ => if applied then s.commit newCfg cache else s
    | _, _ => s

def loopStep (s : LoopState) : LoopEvent → LoopState
  | .fetched source format body =>
    match s.updater, parseSource decode format body with
    | some u, .ok cidrs => { s with updater := some (u.record source cidrs) }
    | _, _ => s
  -- the queued configuration is ignored for a fresh merge, and assigned unconditionally
  | .refresh =>
    match s.updater with
    | some u => { s with cfg := u.merge }
    | none => s
  | .reload decoded applied cache => s.reload x decoded applied cache
  | .tick => s

end

/-! ## When a refresh is safe -/

/-- The effective routes of the updater's tunnels: with the gateway on, every fetched text is an
IPv4 prefix and no two tunnels share an address. -/
def RouteUpdater.Safe (u : RouteUpdater) : Prop :=
  u.base.gateway.enabled = true →
    (∀ t ∈ u.base.tunnels, ∀ r ∈ u.fetchedFor t, isIPv4Prefix r = true) ∧
    ∀ t ∈ u.base.tunnels, ∀ t' ∈ u.base.tunnels, t.name ≠ t'.name →
      RoutesApart (t.routes ++ u.fetchedFor t) (t'.routes ++ u.fetchedFor t')

/-- The condition on the state in which a refresh is handled. -/
def RefreshSafe (s : LoopState) : LoopEvent → Prop
  | .refresh => ∀ u ∈ s.updater, u.Safe
  | _ => True

theorem mergeBase_named (u : RouteUpdater) {c : Config} (h : c.Named) : (u.mergeBase c).Named := by
  refine ⟨?_, ?_, h.clients⟩
  · intro t ht
    obtain ⟨t', ht', rfl⟩ := List.mem_map.mp ht
    exact h.name t' ht'
  · simpa [RouteUpdater.mergeBase, RouteUpdater.mergeTunnel, Function.comp_def] using h.names

theorem overlaps_of_denotes {p q p' q' : Prefix} (hp : p' = p ∨ p' = p.masked)
    (hq : q' = q ∨ q' = q.masked) : p'.overlaps q' = p.overlaps q := by
  have hright : ∀ a b : Prefix, a.overlaps b.masked = a.overlaps b := by
    intro a b
    rw [Prefix.overlaps_comm, Prefix.masked_overlaps, Prefix.overlaps_comm]
  rcases hp with rfl | rfl <;> rcases hq with rfl | rfl <;>
    simp only [Prefix.masked_overlaps, hright]

/-- Merging keeps the addresses of a tunnel, so two merged tunnels are apart when the originals
are. -/
theorem routesApart_merge (u : RouteUpdater) {t t' : Tunnel}
    (h : ∀ r ∈ t.routes, isIPv4Prefix r = true) (h' : ∀ r ∈ t'.routes, isIPv4Prefix r = true) :
    RoutesApart (u.mergeTunnel t).routes (u.mergeTunnel t').routes ↔
      RoutesApart (t.routes ++ u.fetchedFor t) (t'.routes ++ u.fetchedFor t') := by
  obtain ⟨hto, hfrom⟩ := mergeTunnel_denotes u h
  obtain ⟨hto', hfrom'⟩ := mergeTunnel_denotes u h'
  constructor
  · intro hapart r hr r' hr' p p' hp hp'
    obtain ⟨s, hs, hden⟩ := hfrom r hr
    obtain ⟨s', hs', hden'⟩ := hfrom' r' hr'
    obtain ⟨q, hq, heq⟩ := hden p hp
    obtain ⟨q', hq', heq'⟩ := hden' p' hp'
    rw [← overlaps_of_denotes heq heq']
    exact hapart s hs s' hs' q q' hq hq'
  · intro hapart s hs s' hs' q q' hq hq'
    obtain ⟨r, hr, hden⟩ := hto s hs
    obtain ⟨r', hr', hden'⟩ := hto' s' hs'
    obtain ⟨p, hp, heq⟩ := hden q hq
    obtain ⟨p', hp', heq'⟩ := hden' q' hq'
    rw [overlaps_of_denotes heq heq']
    exact hapart r hr r' hr' p p' hp hp'

/-- The merged configuration compiles exactly when the updater is safe. -/
theorem compile_merge_iff {u : RouteUpdater} (h : u.base.Valid) :
    (∃ ruleset, compileGatewayRuleset u.merge = .ok ruleset) ↔ u.Safe := by
  have hroutes := fun t ht => (h.tunnel t ht).routes
  rw [RouteUpdater.merge, compileGatewayRuleset_iff (mergeBase_named u h.named)]
  simp only [RouteUpdater.mergeBase, RouteUpdater.Safe, List.forall_mem_map]
  refine imp_congr_right fun _ => and_congr ?_ ?_
  · refine forall₂_congr fun t ht => ?_
    simp only [mem_mergeTunnel u (hroutes t ht)]
    constructor
    · intro hall r hr
      exact hall r (.inr hr)
    · rintro hall s (⟨r, hr, p, hp, rfl⟩ | hs)
      · obtain ⟨q, hq, h4⟩ := isIPv4Prefix_iff.mp (hroutes t ht r hr)
        obtain rfl := Option.some.inj (hp.symm.trans hq)
        exact isIPv4Prefix_iff.mpr ⟨p.masked, parsePrefix_string (by simpa using h4), by simpa⟩
      · exact hall s hs
  · refine forall₂_congr fun t ht => forall₂_congr fun t' ht' => imp_congr_right fun _ => ?_
    exact routesApart_merge u (hroutes t ht) (hroutes t' ht')

/-! ## Every run -/

/-- The updater's base is always a configuration that passed validation. -/
def LoopState.BaseValid (s : LoopState) : Prop := ∀ u ∈ s.updater, u.base.Valid

def LoopState.Compiles (s : LoopState) : Prop :=
  ∃ ruleset, compileGatewayRuleset s.cfg = .ok ruleset

instance (s : LoopState) : Decidable s.Compiles := decidable_of_iff _ exists_ok_iff.symm

theorem startUpdater_base {c : Config} {cache : String → List String} (h : c.Valid) :
    ∀ u ∈ startUpdater c cache, u.base.Valid := by
  intro u hu
  unfold startUpdater at hu
  split at hu
  · cases hu
    exact h
  · cases hu

/-- A reload either changes nothing, or commits a valid file whose candidate passed. -/
theorem reload_cases (x : External) (s : LoopState) (decoded : Config) (applied : Bool)
    (cache : String → List String) :
    s.reload x decoded applied cache = s ∨ ∃ newCfg, newCfg.Valid ∧
      reloadPreflight (s.candidate newCfg) = .ok () ∧
      s.reload x decoded applied cache = s.commit newCfg cache := by
  unfold LoopState.reload
  split
  · exact .inl rfl
  · rename_i newCfg hparse
    split
    · rename_i _ hpre
      split
      · exact .inr ⟨newCfg, parse_valid hparse, hpre, rfl⟩
      · exact .inl rfl
    · exact .inl rfl

theorem gatewayPreflight_compiles {c : Config} (h : gatewayPreflight c = .ok ()) :
    ∃ ruleset, compileGatewayRuleset c = .ok ruleset := by
  unfold gatewayPreflight at h
  split at h
  · rw [bind_eq_ok] at h
    obtain ⟨ruleset, hok, -⟩ := h
    exact ⟨ruleset, hok⟩
  · rename_i hdisabled
    have hempty : c.gatewayPolicy = ⟨[], []⟩ := by simp [Config.gatewayPolicy, hdisabled]
    rw [compileGatewayRuleset, hempty]
    exact ⟨_, rfl⟩

section
variable (x : External) (decode : String → Except String (List String))

theorem loopStep_baseValid (s : LoopState) (e : LoopEvent) (h : s.BaseValid) :
    (loopStep x decode s e).BaseValid := by
  cases e with
  | fetched source format body =>
    simp only [loopStep]
    split
    · rename_i u cidrs hu hok
      intro v hv
      cases hv
      exact h u hu
    · exact h
  | refresh =>
    simp only [loopStep]
    split
    · exact h
    · exact h
  | reload decoded applied cache =>
    change (s.reload x decoded applied cache).BaseValid
    rcases reload_cases x s decoded applied cache with heq | ⟨newCfg, hvalid, -, heq⟩
    · rw [heq]
      exact h
    · rw [heq]
      intro u hu
      simp only [LoopState.commit] at hu
      cases hs : s.updater with
      | none =>
        rw [hs] at hu
        exact startUpdater_base hvalid u hu
      | some v =>
        rw [hs] at hu
        cases hu
        exact hvalid
  | tick => exact h

/-- One event keeps the configuration compilable exactly when it is a safe refresh or no
refresh at all. -/
theorem loopStep_compiles (s : LoopState) (e : LoopEvent) (hbase : s.BaseValid)
    (h : s.Compiles) : (loopStep x decode s e).Compiles ↔ RefreshSafe s e := by
  cases e with
  | fetched source format body =>
    refine iff_of_true ?_ trivial
    simp only [loopStep]
    split <;> exact h
  | refresh =>
    cases hu : s.updater with
    | none =>
      refine iff_of_true ?_ ?_
      · simpa only [loopStep, hu] using h
      · simp [RefreshSafe, hu]
    | some u =>
      have hmerge := compile_merge_iff (hbase u hu)
      simpa [loopStep, hu, RefreshSafe, LoopState.Compiles] using hmerge
  | reload decoded applied cache =>
    refine iff_of_true ?_ trivial
    change (s.reload x decoded applied cache).Compiles
    rcases reload_cases x s decoded applied cache with heq | ⟨newCfg, -, hpre, heq⟩
    · rw [heq]
      exact h
    · rw [heq]
      unfold reloadPreflight at hpre
      simp only [bind_eq_ok, mapError_eq_ok] at hpre
      obtain ⟨_, hgateway, -⟩ := hpre
      exact gatewayPreflight_compiles hgateway
  | tick => exact iff_of_true h trivial

/-- The configuration held by the main loop compiles at the start and after every event, exactly
when every refresh is handled in a state whose effective routes are safe. -/
theorem loop_compiles_iff {decoded cfg : Config} (hload : decoded.parse x = .ok cfg)
    (hpre : gatewayPreflight cfg = .ok ()) (cache : String → List String)
    (events : List LoopEvent) :
    Always (loopStep x decode) LoopState.Compiles (LoopState.start cfg cache) events ↔
      Throughout (loopStep x decode) RefreshSafe (LoopState.start cfg cache) events :=
  always_iff_throughout (loopStep x decode) (loopStep_baseValid x decode)
    (loopStep_compiles x decode) events (startUpdater_base (parse_valid hload))
    (gatewayPreflight_compiles hpre)

end

/-! ## A refresh that breaks the configuration -/

/-- Two tunnels behind a gateway, the first fed by a source. -/
def sourcedFile : Config :=
  sampleFile [sampleTunnel "wg0" 1 ["1.0.0.0/8"]
      [⟨"provider", "https://example.net/list", "cidr-lines", ""⟩],
    sampleTunnel "wg1" 2 ["2.0.0.0/8"] []] ⟨true, ["192.168.0.0/16"], ""⟩

/-- A fetch of the source followed by the refresh it causes. -/
def refreshWith (body : String) : List LoopEvent :=
  [.fetched "provider" "cidr-lines" body, .refresh]

/-- A fetched network of the second tunnel leaves the loop with a configuration that does not
compile. -/
theorem loop_refresh_overlap : ∃ cfg, sourcedFile.parse sampleExternal = .ok cfg ∧
    gatewayPreflight cfg = .ok () ∧
    ¬Always (loopStep sampleExternal .error) LoopState.Compiles
      (LoopState.start cfg fun _ => []) (refreshWith "# provider\n2.1.0.0/16\n") :=
  ⟨sourcedFile.normalize, by decide +kernel, by decide +kernel, by decide +kernel⟩

/-- With disjoint networks every refresh is safe, and the overlapping one is found unsafe. -/
theorem loop_compiles_iff_sourced :
    (sourcedFile.parse sampleExternal = .ok sourcedFile.normalize ∧
      gatewayPreflight sourcedFile.normalize = .ok ()) ∧
    Throughout (loopStep sampleExternal .error) RefreshSafe
      (LoopState.start sourcedFile.normalize fun _ => []) (refreshWith "3.0.0.0/8\n") ∧
    ¬Throughout (loopStep sampleExternal .error) RefreshSafe
      (LoopState.start sourcedFile.normalize fun _ => []) (refreshWith "2.1.0.0/16\n") := by
  have hload : sourcedFile.parse sampleExternal = .ok sourcedFile.normalize := by decide +kernel
  have hpre : gatewayPreflight sourcedFile.normalize = .ok () := by decide +kernel
  refine ⟨⟨hload, hpre⟩, ?_, ?_⟩
  · rw [← loop_compiles_iff sampleExternal .error hload hpre]
    decide +kernel
  · rw [← loop_compiles_iff sampleExternal .error hload hpre]
    decide +kernel

end SakhtarWg
