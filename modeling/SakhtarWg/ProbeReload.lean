import SakhtarWg.EgressNames
import SakhtarWg.Machine
import SakhtarWg.Reload

/-!
# Probe results across reloads

Every committed configuration starts its own monitor and its own probers, and the new monitor
inherits the results of the tunnels that did not change. Which tunnels are probed is decided by
another section of the file, so a result can be inherited that no prober renews.
-/

namespace SakhtarWg
open Machine

/-- The tunnels an active probe is started for. -/
def Config.probeTargets (c : Config) : List String :=
  if !c.healthProbe.enabled then []
  else if c.healthProbe.via ≠ "" then [c.healthProbe.via]
  else c.tunnels.map (·.name)

/-- The names of the tunnels both configurations have with the same specification. -/
def unchangedTunnels (old next : Config) : List String :=
  (next.tunnels.filter fun t => (old.tunnelNamed t.name).any fun prev => sameTunnelSpec prev t).map
    (·.name)

/-- The probers of a committed configuration, and the monitor they report to. -/
structure ProbeGeneration where
  targets : List String
  monitor : Option Health.Monitor

/-- Probers that were cancelled can still deliver the result of a probe in flight, so their
generations are kept, the newest first. -/
structure Probing where
  cfg : Config
  current : ProbeGeneration
  older : List ProbeGeneration

/-- A commit carries what opening the WireGuard client returns. A result comes from a prober of
the generation that was replaced so many commits ago. -/
inductive ProbingEvent
  | commit (next : Config) (client : Except String Unit)
  | refresh (routes : String → List String)
  | result (replaced : ℕ) (tunnel : String) (success : Bool) (time : ℤ)
  | poll (devices : Health.Devices) (now : ℤ)

def ProbeGeneration.observe (g : ProbeGeneration) (tunnel : String) (success : Bool) (time : ℤ) :
    ProbeGeneration :=
  if tunnel ∈ g.targets then
    { g with monitor := g.monitor.map fun m => m.observeProbe tunnel success time }
  else g

def Probing.start (c : Config) (hm : Option Health.Monitor) : Probing :=
  ⟨c, ⟨c.probeTargets, hm⟩, []⟩

def Probing.commit (s : Probing) (next : Config) (hm : Option Health.Monitor) : Probing where
  cfg := next
  current := ⟨next.probeTargets, hm.map fun m =>
    m.inheritProbes s.current.monitor (unchangedTunnels s.cfg next)⟩
  older := s.current :: s.older

def probingStep (s : Probing) : ProbingEvent → Probing
  | .commit next client =>
    match next.newHealthMonitor client with
    | .error _ => s
    | .ok hm => s.commit next hm
  -- a refresh replaces the routes of the configuration and leaves monitor and probers alone
  | .refresh routes => { s with cfg := { s.cfg with
      tunnels := s.cfg.tunnels.map fun t => { t with routes := routes t.name } } }
  | .result 0 tunnel success time => { s with current := s.current.observe tunnel success time }
  | .result (replaced + 1) tunnel success time =>
    { s with older := s.older.modify replaced fun g => g.observe tunnel success time }
  | .poll devices now => { s with current := { s.current with
      monitor := s.current.monitor.map fun m => m.poll devices now } }

/-- What the current monitor holds of a tunnel's probes. -/
def Probing.held (s : Probing) (tunnel : String) : Option Health.ProbeState :=
  Health.tracked (s.current.monitor.bind (·.probes)) tunnel

/-- A tunnel that is not probed has no verdict at any instant, and is tried by its groups, in
the normal state, as long as its handshake is recent. -/
def Probing.Unprobed (s : Probing) : Prop :=
  ∀ tunnel, tunnel ∉ s.cfg.probeTargets →
    (∀ now, Health.verdict (s.current.monitor.bind (·.probes)) tunnel now = .unknown) ∧
    ∀ m ∈ s.current.monitor, ∀ g ∈ m.groups, ∀ member ∈ g.group.members,
      member.tunnel = tunnel → ∀ devices now,
        (m.observe devices now tunnel).signal = .recent →
        (m.selection devices now g).state = "ready" ∧
          member.mark ∈ (m.selection devices now g).order

/-- The condition on a commit that builds a monitor with a tracker: every unchanged tunnel with
a result at hand is probed by the next configuration. -/
def KeepsProbing (s : Probing) : ProbingEvent → Prop
  | .commit next client =>
    (∃ hm, next.newHealthMonitor client = .ok hm) → next.groups ≠ [] →
      next.healthProbe.enabled = true →
      ∀ tunnel ∈ unchangedTunnels s.cfg next, (s.held tunnel).isSome = true →
        tunnel ∈ next.probeTargets
  | _ => True

/-! ## One step -/

theorem Probing.unprobed_iff {s : Probing} :
    s.Unprobed ↔ ∀ tunnel, tunnel ∉ s.cfg.probeTargets → s.held tunnel = none := by
  refine forall₂_congr fun tunnel _ => ?_
  constructor
  · rintro ⟨hverdict, -⟩
    exact Health.verdict_eq_unknown.mp (hverdict 0)
  · intro hheld
    have hverdict : ∀ now,
        Health.verdict (s.current.monitor.bind (·.probes)) tunnel now = .unknown :=
      fun now => Health.verdict_eq_unknown.mpr hheld
    refine ⟨hverdict, ?_⟩
    intro m hm g hg member hmember htunnel devices now hrecent
    subst htunnel
    apply Health.selectMember_eligible hmember hrecent
    rw [Option.mem_def.mp hm] at hverdict
    rw [show Health.verdict m.probes member.tunnel now = .unknown from hverdict now]
    rfl

theorem newHealthMonitor_probes {c : Config} {client : Except String Unit}
    {hm : Option Health.Monitor} (h : c.newHealthMonitor client = .ok hm) :
    (hm = none ∧ c.groups = []) ∨ ∃ m, hm = some m ∧ c.groups ≠ [] ∧
      m.probes = c.healthSettings.probe.map fun policy => ⟨policy, ∅⟩ := by
  unfold Config.newHealthMonitor at h
  split at h
  · rename_i hgroups
    cases h
    exact .inl ⟨rfl, hgroups⟩
  · rename_i hgroups
    obtain ⟨_, -, hmap⟩ := Fallible.bind_eq_ok.mp h
    obtain ⟨m, hm, rfl⟩ := Fallible.map_eq_ok.mp hmap
    obtain ⟨-, rfl⟩ := Health.newMonitor_eq_ok.mp hm
    exact .inr ⟨_, rfl, hgroups, rfl⟩

/-- What the monitor of a commit holds. -/
theorem Probing.commit_held {s : Probing} {next : Config} {client : Except String Unit}
    {hm : Option Health.Monitor} (h : next.newHealthMonitor client = .ok hm) (tunnel : String) :
    (s.commit next hm).held tunnel =
      if next.groups ≠ [] ∧ next.healthProbe.enabled = true ∧
          tunnel ∈ unchangedTunnels s.cfg next then
        s.held tunnel
      else none := by
  obtain ⟨rfl, hgroups⟩ | ⟨m, rfl, hgroups, hprobes⟩ := newHealthMonitor_probes h
  · simp [Probing.held, Probing.commit, hgroups, Health.tracked]
  · have hempty : ∀ t ∈ m.probes, t.byTunnel = ∅ := by
      intro t ht
      rw [hprobes] at ht
      obtain ⟨_, -, rfl⟩ := Option.map_eq_some_iff.mp (Option.mem_def.mp ht)
      rfl
    have hsome : m.probes.isSome = true ↔ next.healthProbe.enabled = true := by
      rw [hprobes, Config.healthSettings]
      by_cases henabled : next.healthProbe.enabled = true
      · simp [henabled]
      · simp [henabled]
    simp only [Probing.held, Probing.commit, Option.map_some, Option.bind_some]
    rw [Health.Monitor.inheritProbes_tracked hempty]
    simp only [hsome, hgroups, ne_eq, not_false_eq_true, true_and]

/-- A record touches the probed tunnels of its generation only. -/
theorem ProbeGeneration.observe_tracked (g : ProbeGeneration) {tunnel : String}
    (h : tunnel ∉ g.targets) (probed : String) (success : Bool) (time : ℤ) :
    Health.tracked ((g.observe probed success time).monitor.bind (·.probes)) tunnel =
      Health.tracked (g.monitor.bind (·.probes)) tunnel := by
  unfold ProbeGeneration.observe
  split
  · rename_i hprobed
    have hne : tunnel ≠ probed := fun heq => h (heq ▸ hprobed)
    cases g.monitor with
    | none => rfl
    | some m =>
      cases hprobes : m.probes with
      | none => simp [Health.Monitor.observeProbe, hprobes]
      | some t =>
        simp [Health.tracked, Health.Monitor.observeProbe, hprobes, t.record_lookup_ne hne]
  · rfl

theorem probeTargets_routes (c : Config) (routes : String → List String) :
    ({ c with tunnels := c.tunnels.map fun t => { t with routes := routes t.name } } :
      Config).probeTargets = c.probeTargets := by
  simp [Config.probeTargets, Function.comp_def]

/-- The probers at work are those of the configuration that is held. -/
def Probing.Current (s : Probing) : Prop := s.current.targets = s.cfg.probeTargets

theorem Probing.Current.step {s : Probing} (h : s.Current) (event : ProbingEvent) :
    (probingStep s event).Current := by
  cases event with
  | commit next client =>
    simp only [probingStep]
    split
    · exact h
    · rfl
  | refresh routes => exact h.trans (probeTargets_routes s.cfg routes).symm
  | result replaced tunnel success time =>
    cases replaced with
    | zero =>
      have htargets : (s.current.observe tunnel success time).targets = s.current.targets := by
        unfold ProbeGeneration.observe
        split <;> rfl
      exact htargets.trans h
    | succ replaced => exact h
  | poll devices now => exact h

/-- One step leaves unprobed tunnels unprobed exactly under the condition. -/
theorem Probing.unprobed_step {s : Probing} (hcurrent : s.Current) (h : s.Unprobed)
    (event : ProbingEvent) : (probingStep s event).Unprobed ↔ KeepsProbing s event := by
  have hheld := Probing.unprobed_iff.mp h
  rw [Probing.unprobed_iff]
  cases event with
  | commit next client =>
    cases hnew : next.newHealthMonitor client with
    | error e =>
      simp only [probingStep, KeepsProbing, hnew]
      exact iff_of_true hheld (by simp)
    | ok hm =>
      simp only [probingStep, KeepsProbing, hnew, Probing.commit_held hnew]
      constructor
      · intro hnone _ hgroups henabled tunnel hunchanged hsome
        by_contra htarget
        have hno := hnone tunnel htarget
        rw [if_pos ⟨hgroups, henabled, hunchanged⟩] at hno
        rw [hno] at hsome
        cases hsome
      · intro hkeeps tunnel htarget
        split
        · rename_i hinherits
          obtain ⟨hgroups, henabled, hunchanged⟩ := hinherits
          by_contra hsome
          exact htarget (hkeeps ⟨hm, rfl⟩ hgroups henabled tunnel hunchanged
            (Option.isSome_iff_ne_none.mpr hsome))
        · rfl
  | refresh routes =>
    refine iff_of_true (fun tunnel htarget => hheld tunnel ?_) trivial
    rw [← probeTargets_routes s.cfg routes]
    exact htarget
  | result replaced tunnel success time =>
    refine iff_of_true (fun other hother => ?_) trivial
    cases replaced with
    | zero =>
      have htarget : other ∉ s.current.targets := by
        rw [hcurrent]
        exact hother
      exact (s.current.observe_tracked htarget tunnel success time).trans (hheld other hother)
    | succ replaced => exact hheld other hother
  | poll devices now =>
    refine iff_of_true (fun tunnel htarget => ?_) trivial
    rw [← hheld tunnel htarget, Probing.held, Probing.held, probingStep]
    cases s.current.monitor <;> rfl

/-! ## Every run -/

theorem Probing.start_unprobed {c : Config} {client : Except String Unit}
    {hm : Option Health.Monitor} (h : c.newHealthMonitor client = .ok hm) :
    (Probing.start c hm).Unprobed := by
  rw [Probing.unprobed_iff]
  intro tunnel _
  obtain ⟨rfl, -⟩ | ⟨m, rfl, -, hprobes⟩ := newHealthMonitor_probes h
  · rfl
  · simp only [Probing.held, Probing.start, Option.bind_some, hprobes]
    cases c.healthSettings.probe <;> rfl

/-- At every instant of every run an unprobed tunnel is judged by its handshake alone, iff no
commit hands over a result of a tunnel that the next configuration does not probe. -/
theorem unprobed_by_handshake {c : Config} {client : Except String Unit}
    {hm : Option Health.Monitor} (h : c.newHealthMonitor client = .ok hm)
    (events : List ProbingEvent) :
    Always probingStep Probing.Unprobed (Probing.start c hm) events ↔
      Throughout probingStep KeepsProbing (Probing.start c hm) events :=
  always_iff_throughout probingStep (I := Probing.Current)
    (fun _ event hcurrent => hcurrent.step event)
    (fun _ event hcurrent hunprobed => Probing.unprobed_step hcurrent hunprobed event) events rfl
    (Probing.start_unprobed h)

/-- Two tunnels in a group, with a probe through one of them or through each. -/
def probedFile (via : String) : Config :=
  { sampleFile [sampleTunnel "wg0" 51 [] [], sampleTunnel "wg1" 52 [] []] ⟨false, [], ""⟩ with
    groups := [⟨"pair", ["wg0", "wg1"], 0⟩]
    healthProbe := ⟨true, "https://example.net", via, 0, 0, 0, 0, 0, 0, 0⟩ }

/-- A failure of one tunnel, and a reload that keeps to the probe of that tunnel. -/
def narrowedTo (via : String) : List ProbingEvent :=
  [.result 0 "wg0" false 100, .commit (probedFile via).normalize (.ok ())]

theorem unprobed_by_handshake_narrowed :
    ∃ hm, (probedFile "").normalize.newHealthMonitor (.ok ()) = .ok hm ∧
      Always probingStep Probing.Unprobed (Probing.start (probedFile "").normalize hm)
        (narrowedTo "wg0") := by
  have hnew : (probedFile "").normalize.newHealthMonitor (.ok ()) =
      .ok (some (probedFile "").normalize.healthSettings.monitor) := by rfl
  refine ⟨_, hnew, (unprobed_by_handshake hnew _).mpr ⟨trivial, ?_, trivial⟩⟩
  intro _ _ _ tunnel hunchanged hheld
  have hnames : tunnel ∈ ["wg0", "wg1"] := by
    have hall : unchangedTunnels (probedFile "").normalize (probedFile "wg0").normalize =
        ["wg0", "wg1"] := by decide +kernel
    rw [← hall]
    exact hunchanged
  rcases List.mem_pair.mp hnames with rfl | rfl
  · decide +kernel
  · revert hheld
    decide +kernel

/-- When the probe is narrowed to the other tunnel, the failure is inherited and nothing renews
it: the tunnel is failing at first and stale from then on. -/
theorem unprobed_keeps_result :
    (probedFile "").parse sampleExternal = .ok (probedFile "").normalize ∧
    (probedFile "wg1").parse sampleExternal = .ok (probedFile "wg1").normalize ∧
    ((probedFile "").normalize.newHealthMonitor (.ok ())).map (fun hm =>
      let s := (narrowedTo "wg1").foldl probingStep (Probing.start (probedFile "").normalize hm)
      (decide ("wg0" ∈ s.cfg.probeTargets),
        Health.verdict (s.current.monitor.bind (·.probes)) "wg0" 100,
        Health.verdict (s.current.monitor.bind (·.probes)) "wg0" 1000000000000)) =
      .ok (false, .failing, .stale) := by
  refine ⟨?_, ?_, ?_⟩
  · decide +kernel
  · decide +kernel
  · decide +kernel

end SakhtarWg
