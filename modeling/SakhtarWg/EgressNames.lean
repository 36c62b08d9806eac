import Mathlib.Data.Set.Function
import SakhtarWg.Health
import SakhtarWg.TunnelResolver

/-!
# Egress names

A proxy rule names its egress: the word "direct", a tunnel or a group. Groups are
looked up in the health monitor first, other names among the tunnels. The DNS cache
names an egress by its mark.
-/

namespace SakhtarWg
open Fallible

/-! ## The groups of an accepted file -/

structure Config.GroupsValid (c : Config) : Prop where
  interval : 0 < c.healthInterval
  probe : c.healthProbe.enabled = true →
    0 < c.healthProbe.maxAge ∧ 1 ≤ c.healthProbe.failAfter ∧ 1 ≤ c.healthProbe.recoverAfter
  names : (c.groups.map (·.name)).Nodup
  named : ∀ g ∈ c.groups, g.name ≠ "" ∧ g.name ∉ c.tunnelNames
  members : ∀ g ∈ c.groups, g.members ≠ [] ∧ ∀ m ∈ g.members, m ∈ c.tunnelNames
  healthyAfter : ∀ g ∈ c.groups, 0 < g.healthyAfter

theorem requireSeconds_eq_ok {field : String} {v : ℤ} {u : Unit}
    (h : requireSeconds field v = .ok u) : 0 ≤ v := by
  simp only [requireSeconds, require_eq_ok, validSeconds, Bool.and_eq_true,
    decide_eq_true_eq] at h
  exact h.1

theorem validateMember_eq_ok {names seen seen' : List String} {g : Group} {m : String}
    (h : g.validateMember names seen m = .ok seen') :
    seen' = seen ++ [m] ∧ (∀ y ∈ seen, y ≠ m) ∧ m ∈ names := by
  simp only [Group.validateMember, bind_eq_ok, require_eq_ok, pure_eq_ok,
    decide_eq_true_eq] at h
  obtain ⟨_, hmem, _, hnew, rfl⟩ := h
  exact ⟨rfl, fun y hy he => hnew (he ▸ hy), hmem⟩

/-- The checks of one group on its own and against those before it. -/
theorem validateGroup_eq_ok {names : List String} {earlier out : List Group} {g : Group}
    (h : g.validate names earlier = .ok out) :
    out = earlier ++ [g] ∧ (∀ u ∈ earlier, u.name ≠ g.name) ∧
      (g.name ≠ "" ∧ g.name ∉ names) ∧ (g.members ≠ [] ∧ ∀ m ∈ g.members, m ∈ names) ∧
      0 ≤ g.healthyAfter := by
  simp only [Group.validate, bind_eq_ok, require_eq_ok, pure_eq_ok, decide_eq_true_eq] at h
  obtain ⟨_, hne, _, -, _, htunnel, _, hnew, _, hmembers, _, hafter, seen, hseen, rfl⟩ := h
  have hall := (foldlM_collect id (· ≠ ·) (· ∈ names) (fun _ _ _ => validateMember_eq_ok)
    hseen).2.2
  refine ⟨rfl, fun u hu he => ?_, ⟨hne, htunnel⟩, ⟨hmembers, hall⟩, requireSeconds_eq_ok hafter⟩
  exact hnew (he ▸ List.mem_map_of_mem hu)

theorem validateProbe_eq_ok {x : External} {names : List String} {p : HealthProbe} {u : Unit}
    (h : p.validate x names = .ok u) (henabled : p.enabled = true) :
    0 < p.maxAge ∧ 1 ≤ p.failAfter ∧ 1 ≤ p.recoverAfter := by
  simp only [HealthProbe.validate, henabled, Bool.not_true, Bool.false_eq_true, if_false] at h
  cases huri : x.parseRequestURI p.endpoint with
  | none => simp [huri] at h
  | some uri =>
    simp only [huri, bind_eq_ok, require_eq_ok, requireBetween, Bool.and_eq_true,
      decide_eq_true_eq] at h
    obtain ⟨_, -, _, -, _, -, _, hinterval, _, htimeout, _, -, _, -, _, hfail, _, hrecover,
      hage⟩ := h
    refine ⟨?_, hfail.1, hrecover.1⟩
    have := hinterval.1
    have := htimeout.1
    have := hage.2
    omega

theorem orDefault_ne_zero {v d : ℤ} (h : d ≠ 0) : orDefault v d ≠ 0 := by
  unfold orDefault
  split
  · exact h
  · assumption

theorem parse_groupsValid {x : External} {decoded c : Config} (h : decoded.parse x = .ok c) :
    c.GroupsValid := by
  unfold Config.parse at h
  obtain ⟨rules, rfl⟩ := validate_eq_ok h
  unfold Config.validate at h
  simp only [bind_eq_ok] at h
  obtain ⟨_, -, _, hinterval, _, -, _, htunnels, _, -, _, -, _, -, seen, hgroups, -⟩ := h
  unfold Config.validateTunnels at htunnels
  simp only [bind_eq_ok] at htunnels
  obtain ⟨_, -, _, hprobe, -⟩ := htunnels
  obtain ⟨-, hpair, hall⟩ := foldlM_collect id (fun u g : Group => u.name ≠ g.name)
    (fun g => (g.name ≠ "" ∧ g.name ∉ decoded.normalize.tunnelNames) ∧
      (g.members ≠ [] ∧ ∀ m ∈ g.members, m ∈ decoded.normalize.tunnelNames) ∧
      0 ≤ g.healthyAfter) (fun _ _ _ => validateGroup_eq_ok) hgroups
  rw [List.map_id] at hpair
  refine ⟨?_, validateProbe_eq_ok hprobe, List.pairwise_map.mpr hpair, fun g hg => (hall g hg).1,
    fun g hg => (hall g hg).2.1, fun g hg => ?_⟩
  · have hle : 0 ≤ decoded.normalize.healthInterval := requireSeconds_eq_ok hinterval
    have hne : decoded.normalize.healthInterval ≠ 0 := orDefault_ne_zero (by decide)
    show 0 < decoded.normalize.healthInterval
    omega
  · have hle := (hall g hg).2.2
    obtain ⟨g', -, rfl⟩ := List.mem_map.mp hg
    have hne : g'.normalize.healthyAfter ≠ 0 := orDefault_ne_zero (by decide)
    omega

/-! ## The monitor of a configuration -/

namespace Config

def healthGroup (c : Config) (g : Group) : Health.Group where
  name := g.name
  members := g.members.map fun m => ⟨m, BitVec.ofInt 32 (c.markFor m)⟩
  healthyAfter := g.healthyAfter * 1000000000

def healthSettings (c : Config) : Health.Settings where
  interval := c.healthInterval * 1000000000
  groups := c.groups.map c.healthGroup
  probe :=
    if c.healthProbe.enabled then
      some ⟨c.healthProbe.maxAge * 1000000000, c.healthProbe.failAfter,
        c.healthProbe.recoverAfter⟩
    else none

/-- `client` is what opening the WireGuard client returns. -/
def newHealthMonitor (client : Except String Unit) (c : Config) :
    Except String (Option Health.Monitor) :=
  if c.groups = [] then .ok none
  else do
    client
    some <$> Health.newMonitor c.healthSettings

end Config

/-! ## Marks -/

/-- A fixed mark, or the group of a monitor whose choice is read at each use. -/
inductive MarkRef
  | static (mark : ℤ)
  | group (name : String)
  deriving DecidableEq

def groupState (hm : Option Health.Monitor) (name : String) : Option Health.GroupState :=
  hm.bind fun m => m.byName name

/-- The active member is kept as a signed number. -/
def MarkRef.mark (hm : Option Health.Monitor) : MarkRef → ℤ
  | .static mark => mark
  | .group name => ((groupState hm name).map fun s => s.active.toInt).getD 0

/-- The order a connection tries. -/
def MarkRef.marks (hm : Option Health.Monitor) : MarkRef → List ℤ
  | .static mark => [mark]
  | .group name =>
    match ((groupState hm name).map (·.order)).getD [] with
    | [] => [(MarkRef.group name).mark hm]
    | order => order.map fun mark => (mark.toNat : ℤ)

def Config.markRefFor (c : Config) (hm : Option Health.Monitor) (via : String) : MarkRef :=
  if (groupState hm via).isSome then .group via else .static (c.markFor via)

/-- The egress names a configuration routes to. -/
def Config.vias (c : Config) : List String := c.proxy.default :: c.proxy.rules.map (·.via)

/-- What a router built with `hm` dials for a name once `events` have reached the monitor. -/
def Config.marksAfter (c : Config) (hm : Option Health.Monitor) (events : List Health.Event)
    (via : String) : List ℤ :=
  (c.markRefFor hm via).marks (hm.map fun m => m.run events)

/-! ## The cache's queries -/

def Config.dnsQuery (c : Config) (generation : UInt64) (mark : ℤ) (host : String) : Dns.Query where
  host := host
  family := .any
  egress := c.router.egressName mark
  resolver := String.intercalate "," (resolverOrDefault c.proxy.resolver)
  generation := generation

/-- The marks connections are dialed with. -/
def Config.egressMarks (c : Config) : List ℤ := 0 :: c.tunnels.map (·.fwmark)

/-- Every name in use means one egress, and every egress has its own name in the cache. -/
structure EgressNamed (c : Config) (marks : String → List ℤ) : Prop where
  direct : "direct" ∈ c.vias → marks "direct" = [0]
  tunnel : ∀ t ∈ c.tunnels, t.name ∈ c.vias → marks t.name = [t.fwmark]
  group : ∀ g ∈ c.groups, g.name ∈ c.vias → marks g.name ≠ [] ∧
    ∀ mark ∈ marks g.name, ∃ t ∈ c.tunnels, t.name ∈ g.members ∧ mark = t.fwmark
  marked : ∀ via ∈ c.vias, via ∈ c.tunnelNames ∨ via ∈ c.groups.map (·.name) → 0 ∉ marks via
  egress : Set.InjOn c.router.egressName {mark | mark ∈ c.egressMarks}
  served : ∀ mark ∈ c.egressMarks, ∀ mark' ∈ c.egressMarks, ∀ generation generation' host host' k,
    Dns.makeKey (c.dnsQuery generation mark host) = .ok k →
    Dns.makeKey (c.dnsQuery generation' mark' host') = .ok k → mark = mark'

/-- The word "direct" is no tunnel, and no group where it is used as an egress. -/
def Config.directReserved (c : Config) : Prop :=
  "direct" ∉ c.tunnelNames ∧ ("direct" ∈ c.vias → "direct" ∉ c.groups.map (·.name))

/-! ## What a name resolves to -/

theorem Config.Valid.name_ne {c : Config} (h : c.Valid) {t : Tunnel} (ht : t ∈ c.tunnels) :
    t.name ≠ "" := interfaceNameOk_ne (h.tunnel t ht).name

theorem Config.Valid.markFor_name {c : Config} (h : c.Valid) {t : Tunnel} (ht : t ∈ c.tunnels)
    (hdirect : t.name ≠ "direct") : c.markFor t.name = t.fwmark := by
  have hfind : c.tunnels.find? (fun u => u.name = t.name) = some t :=
    (find?_key (fun u : Tunnel => u.name) h.names).mpr ⟨ht, rfl⟩
  simp [Config.markFor, hdirect, h.name_ne ht, hfind]

theorem Config.Valid.egressName_fwmark {c : Config} (h : c.Valid) {t : Tunnel}
    (ht : t ∈ c.tunnels) : c.router.egressName t.fwmark = t.name := by
  have hkeys : (c.tunnels.reverse.map (·.fwmark)).Nodup := by
    rw [List.map_reverse, List.nodup_reverse]
    exact h.fwmarks
  have hfind : c.tunnelOf t.fwmark = some t :=
    (find?_key (fun u : Tunnel => u.fwmark) hkeys).mpr ⟨List.mem_reverse.mpr ht, rfl⟩
  have hpos : t.fwmark ≠ 0 := ne_of_gt (h.tunnel t ht).fwmark.1
  simp [Proxy.Router.egressName, Config.router, hfind, hpos, h.name_ne ht]

/-- A mark survives its 32 bits. -/
theorem Config.Valid.mark_toNat {c : Config} (h : c.Valid) {t : Tunnel} (ht : t ∈ c.tunnels) :
    ((BitVec.ofInt 32 t.fwmark).toNat : ℤ) = t.fwmark := by
  obtain ⟨hpos, hle⟩ := (h.tunnel t ht).fwmark
  rw [BitVec.toNat_ofInt]
  omega

theorem Config.GroupsValid.settings {c : Config} (h : c.GroupsValid) : c.healthSettings.Valid := by
  have hinterval := h.interval
  refine ⟨?_, ?_, ?_⟩
  · show 0 < c.healthInterval * 1000000000
    omega
  · intro policy hpolicy
    simp only [Config.healthSettings] at hpolicy
    split at hpolicy
    · rename_i henabled
      obtain ⟨hage, hfail, hrecover⟩ := h.probe henabled
      cases hpolicy
      simp only [Health.ProbePolicy.validate, require_eq_ok, Bool.not_eq_true',
        Bool.or_eq_false_iff, decide_eq_false_iff_not]
      omega
    · cases hpolicy
  · intro g hg
    obtain ⟨g', hg', rfl⟩ := List.mem_map.mp hg
    have hafter := h.healthyAfter g' hg'
    refine ⟨(h.named g' hg').1, ?_, ?_⟩
    · simpa [Config.healthGroup] using (h.members g' hg').1
    · show 0 < g'.healthyAfter * 1000000000
      omega

/-- A monitor that was built for the groups of a configuration, if it has any. -/
def Watches (c : Config) (hm : Option Health.Monitor) : Prop :=
  match hm with
  | none => c.groups = []
  | some m => m.Ordered (c.groups.map c.healthGroup)

theorem newHealthMonitor_watches {c : Config} (h : c.GroupsValid) :
    ∃ hm, c.newHealthMonitor (.ok ()) = .ok hm ∧ Watches c hm := by
  by_cases hgroups : c.groups = []
  · exact ⟨none, by simp [Config.newHealthMonitor, hgroups], hgroups⟩
  · obtain ⟨m, hm, hordered⟩ := Health.newMonitor_ordered h.settings
    refine ⟨some m, ?_, hordered⟩
    simp only [Config.newHealthMonitor, hgroups, if_false, hm]
    rfl

section
variable {c : Config} {hm : Option Health.Monitor}

theorem Watches.run (hg : c.GroupsValid) (h : Watches c hm) (events : List Health.Event) :
    Watches c (hm.map fun m => m.run events) := by
  cases hm with
  | none => exact h
  | some m =>
    apply Health.Monitor.Ordered.run h
    intro g hmem
    exact (hg.settings.group g hmem).2.1

theorem Watches.group (hg : c.GroupsValid) (h : Watches c hm) {g : Group} (hmem : g ∈ c.groups) :
    ∃ s, groupState hm g.name = some s ∧ Health.Covers (c.healthGroup g).members s.order := by
  cases hm with
  | none =>
    rw [show c.groups = [] from h] at hmem
    cases hmem
  | some m =>
    have hnames : ((c.groups.map c.healthGroup).map (·.name)).Nodup := by
      simpa [Config.healthGroup, Function.comp_def] using hg.names
    obtain ⟨s, hs, -, hcovers⟩ := Health.Monitor.Ordered.byName h hnames
      (List.mem_map_of_mem hmem)
    exact ⟨s, hs, hcovers⟩

theorem Watches.other (h : Watches c hm) {via : String} (hvia : via ∉ c.groups.map (·.name)) :
    groupState hm via = none := by
  cases hm with
  | none => rfl
  | some m =>
    apply Health.Monitor.Ordered.byName_none h
    simpa [Config.healthGroup, Function.comp_def] using hvia

theorem Watches.marksAfter_other (h : Watches c hm) (events : List Health.Event) {via : String}
    (hvia : via ∉ c.groups.map (·.name)) : c.marksAfter hm events via = [c.markFor via] := by
  simp [Config.marksAfter, Config.markRefFor, h.other hvia, MarkRef.marks]

/-- A group is dialed through marks of its members, whatever its monitor has seen. -/
theorem Watches.marksAfter_group (hg : c.GroupsValid) (h : Watches c hm)
    (events : List Health.Event) {g : Group} (hmem : g ∈ c.groups) :
    c.marksAfter hm events g.name ≠ [] ∧ ∀ mark ∈ c.marksAfter hm events g.name,
      ∃ m ∈ g.members, mark = ((BitVec.ofInt 32 (c.markFor m)).toNat : ℤ) := by
  obtain ⟨s, hs, -⟩ := h.group hg hmem
  obtain ⟨s', hs', hne, hcovers⟩ := (h.run hg events).group hg hmem
  have hmarks : c.marksAfter hm events g.name = s'.order.map fun mark => (mark.toNat : ℤ) := by
    simp only [Config.marksAfter, Config.markRefFor, hs, Option.isSome_some, if_true,
      MarkRef.marks, hs', Option.map_some, Option.getD_some]
  rw [hmarks]
  refine ⟨by simpa using hne, fun mark hmark => ?_⟩
  obtain ⟨fw, hfw, rfl⟩ := List.mem_map.mp hmark
  have hmember := hcovers fw hfw
  simp only [Health.memberMarks, Config.healthGroup, List.map_map, List.mem_map,
    Function.comp_apply] at hmember
  obtain ⟨m, hm, rfl⟩ := hmember
  exact ⟨m, hm, rfl⟩

end

/-! ## The reserved word -/

theorem makeKey_egress {q : Dns.Query} {k : Dns.Key} (h : Dns.makeKey q = .ok k) :
    k.egress = q.egress := by
  unfold Dns.makeKey at h
  simp only [bind_eq_ok] at h
  obtain ⟨_, -, h⟩ := h
  split at h
  · cases h
  · cases h
    rfl

theorem Config.Valid.egressName_injOn {c : Config} (h : c.Valid)
    (hdirect : "direct" ∉ c.tunnelNames) :
    Set.InjOn c.router.egressName {mark | mark ∈ c.egressMarks} := by
  have hzero : c.router.egressName 0 = "direct" := by simp [Proxy.Router.egressName]
  have hname : ∀ t ∈ c.tunnels, t.name ≠ "direct" :=
    fun t ht he => hdirect (he ▸ List.mem_map_of_mem ht)
  intro a ha b hb he
  simp only [Config.egressMarks, Set.mem_ofPred_eq, List.mem_cons, List.mem_map] at ha hb
  rcases ha with rfl | ⟨t, ht, rfl⟩
  · rcases hb with rfl | ⟨u, hu, rfl⟩
    · rfl
    · rw [hzero, h.egressName_fwmark hu] at he
      exact absurd he.symm (hname u hu)
  · rcases hb with rfl | ⟨u, hu, rfl⟩
    · rw [hzero, h.egressName_fwmark ht] at he
      exact absurd he (hname t ht)
    · rw [h.egressName_fwmark ht, h.egressName_fwmark hu] at he
      rw [List.inj_on_of_nodup_map h.names ht hu he]

/-- The names of an accepted file are unambiguous exactly where the word is reserved. -/
theorem egress_named_iff {c : Config} (h : c.Valid) (hg : c.GroupsValid)
    {hm : Option Health.Monitor} (hw : Watches c hm) (events : List Health.Event) :
    EgressNamed c (c.marksAfter hm events) ↔ c.directReserved := by
  constructor
  · intro hn
    refine ⟨fun hmem => ?_, fun hvia hgroup => ?_⟩
    · -- the tunnel's mark and the unmarked egress share the name
      obtain ⟨t, ht, hname⟩ := List.mem_map.mp hmem
      have hsame : c.router.egressName t.fwmark = c.router.egressName 0 := by
        rw [h.egressName_fwmark ht, hname]
        simp [Proxy.Router.egressName]
      have hzero : t.fwmark = 0 := hn.egress
        (List.mem_cons_of_mem _ (List.mem_map_of_mem ht)) (List.mem_cons_self ..) hsame
      exact absurd hzero (ne_of_gt (h.tunnel t ht).fwmark.1)
    · apply hn.marked "direct" hvia (.inr hgroup)
      rw [hn.direct hvia]
      simp
  · rintro ⟨htunnel, hgroup⟩
    have hname : ∀ t ∈ c.tunnels, t.name ≠ "direct" :=
      fun t ht he => htunnel (he ▸ List.mem_map_of_mem ht)
    have htunnels : ∀ t ∈ c.tunnels, c.marksAfter hm events t.name = [t.fwmark] := by
      intro t ht
      rw [hw.marksAfter_other events, h.markFor_name ht (hname t ht)]
      intro hmem
      obtain ⟨g, hgm, he⟩ := List.mem_map.mp hmem
      exact (hg.named g hgm).2 (he ▸ List.mem_map_of_mem ht)
    have hgroups : ∀ g ∈ c.groups, c.marksAfter hm events g.name ≠ [] ∧
        ∀ mark ∈ c.marksAfter hm events g.name,
          ∃ t ∈ c.tunnels, t.name ∈ g.members ∧ mark = t.fwmark := by
      intro g hgm
      obtain ⟨hne, hmarks⟩ := hw.marksAfter_group hg events hgm
      refine ⟨hne, fun mark hmark => ?_⟩
      obtain ⟨m, hmem, rfl⟩ := hmarks mark hmark
      obtain ⟨t, ht, rfl⟩ := List.mem_map.mp ((hg.members g hgm).2 m hmem)
      exact ⟨t, ht, hmem, by rw [h.markFor_name ht (hname t ht), h.mark_toNat ht]⟩
    have hinj := h.egressName_injOn htunnel
    refine ⟨fun hvia => ?_, fun t ht _ => htunnels t ht, fun g hgm _ => hgroups g hgm, ?_, hinj, ?_⟩
    · rw [hw.marksAfter_other events (hgroup hvia)]
      simp [Config.markFor]
    · intro via _ hkind hzero
      rcases hkind with hkind | hkind
      · obtain ⟨t, ht, rfl⟩ := List.mem_map.mp hkind
        rw [htunnels t ht, List.mem_singleton] at hzero
        exact absurd hzero.symm (ne_of_gt (h.tunnel t ht).fwmark.1)
      · obtain ⟨g, hgm, rfl⟩ := List.mem_map.mp hkind
        obtain ⟨t, ht, -, he⟩ := (hgroups g hgm).2 0 hzero
        exact absurd he.symm (ne_of_gt (h.tunnel t ht).fwmark.1)
    · intro mark hmark mark' hmark' generation generation' host host' k hk hk'
      apply hinj hmark hmark'
      have he := (makeKey_egress hk).symm.trans (makeKey_egress hk')
      exact he

instance (c : Config) : Decidable c.directReserved := inferInstanceAs (Decidable (_ ∧ _))

/-- For every accepted file the monitor is built, and over its whole life the egress names are
unambiguous exactly where no tunnel is called "direct", nor a group while the word is in use. -/
theorem egress_names {x : External} {decoded c : Config} (h : decoded.parse x = .ok c) :
    ∃ hm, c.newHealthMonitor (.ok ()) = .ok hm ∧
      ∀ events, EgressNamed c (c.marksAfter hm events) ↔ c.directReserved := by
  have hg := parse_groupsValid h
  obtain ⟨hm, hnew, hw⟩ := newHealthMonitor_watches hg
  exact ⟨hm, hnew, egress_named_iff (parse_valid h) hg hw⟩

/-- Two tunnels and a group, all of them in use beside the direct egress. -/
def namedFile (tunnel group : String) : Config :=
  { sampleFile [sampleTunnel tunnel 7 [] [], sampleTunnel "wg1" 8 [] []] ⟨false, [], ""⟩ with
    groups := [⟨group, ["wg1"], 0⟩]
    proxy := { blankProxy with rules := [⟨tunnel, ["a.example"]⟩, ⟨group, ["b.example"]⟩] } }

theorem egress_names_reserved : (namedFile "wg0" "pair").parse sampleExternal =
      .ok (namedFile "wg0" "pair").normalize ∧
    ∃ hm, (namedFile "wg0" "pair").normalize.newHealthMonitor (.ok ()) = .ok hm ∧
      ∀ events, EgressNamed (namedFile "wg0" "pair").normalize
        ((namedFile "wg0" "pair").normalize.marksAfter hm events) := by
  have hparse : (namedFile "wg0" "pair").parse sampleExternal =
      .ok (namedFile "wg0" "pair").normalize := by decide +kernel
  obtain ⟨hm, hnew, hiff⟩ := egress_names hparse
  exact ⟨hparse, hm, hnew, fun events => (hiff events).mpr (by decide +kernel)⟩

/-- A tunnel called "direct" is accepted, dialed unmarked and named like the direct egress; a
group called "direct" is accepted and takes the connections meant for the direct egress. -/
theorem direct_ambiguous :
    ((namedFile "direct" "pair").parse sampleExternal =
        .ok (namedFile "direct" "pair").normalize ∧
      ("direct", 7) ∈ (namedFile "direct" "pair").normalize.tunnels.map
        (fun t => (t.name, t.fwmark)) ∧
      ((namedFile "direct" "pair").normalize.newHealthMonitor (.ok ())).map
        (fun hm => (namedFile "direct" "pair").normalize.marksAfter hm [] "direct") = .ok [0] ∧
      (namedFile "direct" "pair").normalize.router.egressName 7 =
        (namedFile "direct" "pair").normalize.router.egressName 0) ∧
    (namedFile "wg0" "direct").parse sampleExternal =
        .ok (namedFile "wg0" "direct").normalize ∧
      ((namedFile "wg0" "direct").normalize.newHealthMonitor (.ok ())).map
        (fun hm => (namedFile "wg0" "direct").normalize.marksAfter hm [] "direct") = .ok [8] := by
  decide +kernel

end SakhtarWg
