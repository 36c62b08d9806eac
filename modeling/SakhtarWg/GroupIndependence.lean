import SakhtarWg.Health

/-!
# Groups that share a tunnel

One poll computes the session signal of a tunnel once, with the smallest age limit among all
groups that have it. So a group is judged as it would be alone exactly as long as no other
group has a smaller limit that the age of a shared member's handshake has reached.
-/

namespace SakhtarWg.Health

/-- The age of a tunnel's last handshake, where it has had one. -/
def handshakeAge (devices : Devices) (now : ℤ) (tunnel : String) : Option ℤ :=
  (devices tunnel).bind fun peers => peers.head?.bind fun peer =>
    peer.lastHandshake.map fun handshake => max (now - handshake) 0

/-- What a poll has published of the group at an index: the active mark, the failover order and
the entry of the snapshot. -/
def Monitor.published (m : Monitor) (i : ℕ) :
    Option (FwMark × List FwMark × Option GroupSnapshot) :=
  m.groups[i]?.map fun s => (s.active, s.order, m.snapshot.bind fun snap => snap.groups[i]?)

def Group.has (g : Group) (tunnel : String) : Prop := tunnel ∈ g.members.map (·.tunnel)

/-! ## The shared age limit -/

/-- An age is below the smallest limit of a tunnel iff it is below each of them, and there is
one. -/
theorem lt_foldl_threshold {tunnel : String} {age : ℤ} (hage : 0 ≤ age)
    (pairs : List (Member × Group)) (hpos : ∀ p ∈ pairs, 0 < p.2.healthyAfter) (current : ℤ) :
    age < pairs.foldl (fun current mg =>
      if mg.1.tunnel = tunnel && (current = 0 || mg.2.healthyAfter < current) then
        mg.2.healthyAfter
      else current) current ↔
    (current ≠ 0 → age < current) ∧ (∀ p ∈ pairs, p.1.tunnel = tunnel → age < p.2.healthyAfter) ∧
      (current ≠ 0 ∨ ∃ p ∈ pairs, p.1.tunnel = tunnel) := by
  induction pairs generalizing current with
  | nil =>
    by_cases hzero : current = 0
    · simp [hzero, hage]
    · simp [hzero]
  | cons p pairs ih =>
    obtain ⟨hp, hpos⟩ := List.forall_mem_cons.mp hpos
    rw [List.foldl_cons, ih hpos]
    simp only [List.forall_mem_cons, List.exists_mem_cons_iff, Bool.and_eq_true, Bool.or_eq_true,
      decide_eq_true_eq]
    by_cases htunnel : p.1.tunnel = tunnel
    · by_cases hless : current = 0 ∨ p.2.healthyAfter < current
      · rw [if_pos ⟨htunnel, hless⟩]
        have hlt : age < p.2.healthyAfter → current ≠ 0 → age < current := by omega
        have hne : p.2.healthyAfter ≠ 0 := by omega
        simp only [ne_eq, hne, not_false_eq_true, htunnel, forall_const, true_or, and_true]
        tauto
      · rw [if_neg fun h => hless h.2]
        have hlt : (current ≠ 0 → age < current) → age < p.2.healthyAfter := by omega
        have hne : current ≠ 0 := by omega
        simp only [ne_eq, hne, not_false_eq_true, htunnel, forall_const, true_or, and_true]
        simp only [ne_eq, hne, not_false_eq_true, forall_const] at hlt
        tauto
    · rw [if_neg fun h => htunnel h.1]
      simp [htunnel]

theorem Monitor.lt_threshold {m : Monitor} (hpos : ∀ s ∈ m.groups, 0 < s.group.healthyAfter)
    {tunnel : String} {age : ℤ} (hage : 0 ≤ age) : age < m.threshold tunnel ↔
      (∀ s ∈ m.groups, s.group.has tunnel → age < s.group.healthyAfter) ∧
        ∃ s ∈ m.groups, s.group.has tunnel := by
  rw [Monitor.threshold, lt_foldl_threshold hage]
  · simp only [List.mem_flatMap, List.mem_map, Group.has]
    constructor
    · rintro ⟨-, hall, hsome⟩
      refine ⟨fun s hs ht => ?_, ?_⟩
      · obtain ⟨member, hmember, rfl⟩ := ht
        exact hall (member, s.group) ⟨s, hs, member, hmember, rfl⟩ rfl
      · obtain hne | ⟨_, ⟨s, hs, member, hmember, rfl⟩, rfl⟩ := hsome
        · exact absurd rfl hne
        · exact ⟨s, hs, member, hmember, rfl⟩
    · rintro ⟨hall, s, hs, member, hmember, rfl⟩
      refine ⟨fun hne => absurd rfl hne, ?_, .inr ⟨_, ⟨s, hs, member, hmember, rfl⟩, rfl⟩⟩
      rintro _ ⟨s', hs', member', hmember', rfl⟩ ht
      exact hall s' hs' ⟨member', hmember', ht⟩
  · intro p hp
    obtain ⟨s, hs, hp⟩ := List.mem_flatMap.mp hp
    obtain ⟨member, -, rfl⟩ := List.mem_map.mp hp
    exact hpos s hs

theorem handshakeAge_nonneg {devices : Devices} {now age : ℤ} {tunnel : String}
    (h : handshakeAge devices now tunnel = some age) : 0 ≤ age := by
  simp only [handshakeAge, Option.bind_eq_some_iff, Option.map_eq_some_iff] at h
  obtain ⟨_, -, _, -, _, -, rfl⟩ := h
  exact le_max_right _ _

theorem Monitor.observe_recent (m : Monitor) (devices : Devices) (now : ℤ) (tunnel : String) :
    (m.observe devices now tunnel).signal = .recent ↔
      ∃ age, handshakeAge devices now tunnel = some age ∧ age < m.threshold tunnel := by
  unfold Monitor.observe handshakeAge
  cases devices tunnel with
  | none => simp
  | some peers =>
    cases peers with
    | nil => simp
    | cons peer peers =>
      cases hlast : peer.lastHandshake with
      | none => simp [hlast]
      | some handshake => simp [hlast]

/-! ## Selection depends on the members' signals and verdicts only -/

theorem selectMember_congr {signal signal' : String → SessionSignal}
    (judge : String → ProbeVerdict) {members : List Member}
    (h : ∀ member ∈ members,
      (signal member.tunnel = .recent ↔ signal' member.tunnel = .recent)) :
    selectMember signal judge members = selectMember signal' judge members := by
  have hfind : findMembers signal judge members = findMembers signal' judge members := by
    apply List.foldl_ext
    intro f x hx
    have hmem : x.1 ∈ members := List.fst_mem_of_mem_zipIdx hx
    simp only [Found.add, ne_eq, h x.1 hmem]
  rw [selectMember, selectMember, hfind]

/-- The probe history of a monitor does not depend on its groups. -/
theorem Monitor.run_probes {m m' : Monitor} (h : m.probes = m'.probes) (events : List Event) :
    (m.run events).probes = (m'.run events).probes := by
  induction events generalizing m m' with
  | nil => exact h
  | cons event events ih =>
    apply ih
    cases event with
    | poll devices now => exact h
    | probe tunnel success time => simp only [Monitor.step, Monitor.observeProbe, h]
    | inherit previous tunnels =>
      simp only [Monitor.step, Monitor.inheritProbes, h]
      split
      · rfl
      · exact h

theorem Monitor.poll_published {m : Monitor} {i : ℕ} {s : GroupState} (h : m.groups[i]? = some s)
    (devices : Devices) (now : ℤ) : (m.poll devices now).published i =
      some ((m.selection devices now s).chosen, (m.selection devices now s).order,
        some ⟨s.group.name, (m.selection devices now s).chosen,
          (m.selection devices now s).state, (m.selection devices now s).reason⟩) := by
  simp [Monitor.published, Monitor.poll, h]

/-! ## A group among others and alone -/

theorem run_ordered {cfg : Settings} (h : cfg.Valid) (events : List Event) :
    (cfg.monitor.run events).Ordered cfg.groups := by
  obtain ⟨m, hm, hordered⟩ := newMonitor_ordered h
  rw [(newMonitor_eq_ok.mp hm).2] at hordered
  exact hordered.run (fun g hg => (h.group g hg).2.1) events

/-- A member of a group counts as recent iff its age is below the limit of every group that has
it. -/
theorem run_recent {cfg : Settings} (h : cfg.Valid) (events : List Event) (devices : Devices)
    (now : ℤ) {g : Group} (hg : g ∈ cfg.groups) {tunnel : String} (htunnel : g.has tunnel) :
    ((cfg.monitor.run events).observe devices now tunnel).signal = .recent ↔
      ∃ age, handshakeAge devices now tunnel = some age ∧
        ∀ other ∈ cfg.groups, other.has tunnel → age < other.healthyAfter := by
  obtain ⟨hgroups, -⟩ := run_ordered h events
  have hmem : ∀ {P : Group → Prop},
      (∀ s ∈ (cfg.monitor.run events).groups, P s.group) ↔ ∀ other ∈ cfg.groups, P other := by
    intro P
    rw [← hgroups]
    exact List.forall_mem_map.symm
  have hsome : ∃ s ∈ (cfg.monitor.run events).groups, s.group.has tunnel := by
    rw [← hgroups] at hg
    obtain ⟨s, hs, rfl⟩ := List.mem_map.mp hg
    exact ⟨s, hs, htunnel⟩
  have hpos := hmem.mpr fun other hother => (h.group other hother).2.2
  rw [Monitor.observe_recent]
  refine exists_congr fun age => and_congr_right fun hage => ?_
  rw [Monitor.lt_threshold hpos (handshakeAge_nonneg hage), and_iff_left hsome]
  exact hmem (P := fun other => other.has tunnel → age < other.healthyAfter)

/-- What a poll publishes of a group, from the signals of its tunnels. -/
theorem run_published {cfg : Settings} (h : cfg.Valid) (events : List Event) {i : ℕ} {g : Group}
    (hg : cfg.groups[i]? = some g) (devices : Devices) (now : ℤ) :
    ((cfg.monitor.run events).poll devices now).published i =
      let sel := selectMember
        (fun tunnel => ((cfg.monitor.run events).observe devices now tunnel).signal)
        (fun tunnel => verdict (cfg.monitor.run events).probes tunnel now) g.members
      some (sel.chosen, sel.order, some ⟨g.name, sel.chosen, sel.state, sel.reason⟩) := by
  rw [← (run_ordered h events).1, List.getElem?_map, Option.map_eq_some_iff] at hg
  obtain ⟨s, hs, rfl⟩ := hg
  exact Monitor.poll_published hs devices now

/-- Two monitors publish a group alike where the same members of it count as recent. -/
theorem run_published_congr {cfg own : Settings} (h : cfg.Valid) (h' : own.Valid)
    (hprobe : cfg.probe = own.probe) {i j : ℕ} {g : Group} (hg : cfg.groups[i]? = some g)
    (hg' : own.groups[j]? = some g) (events : List Event) (devices : Devices) (now : ℤ)
    (hrecent : ∀ member ∈ g.members,
      (((cfg.monitor.run events).observe devices now member.tunnel).signal = .recent ↔
        ((own.monitor.run events).observe devices now member.tunnel).signal = .recent)) :
    ((cfg.monitor.run events).poll devices now).published i =
      ((own.monitor.run events).poll devices now).published j := by
  have hprobes : cfg.monitor.probes = own.monitor.probes := by
    simp only [Settings.monitor, hprobe]
  rw [run_published h events hg, run_published h' events hg', Monitor.run_probes hprobes events]
  dsimp only
  rw [@selectMember_congr _
    (fun tunnel => ((own.monitor.run events).observe devices now tunnel).signal) _ _ hrecent]

/-- A group is published as a monitor with that group alone publishes it, with the recent
handshakes that its own limit gives, iff no member's age is below the group's limit and not
below that of another group that has the tunnel. -/
theorem group_alone_iff {cfg : Settings} {m : Monitor} (h : newMonitor cfg = .ok m) {i : ℕ}
    {g : Group} (hg : cfg.groups[i]? = some g) (events : List Event) (devices : Devices)
    (now : ℤ) :
    ∃ alone, newMonitor { cfg with groups := [g] } = .ok alone ∧
      ((((m.run events).poll devices now).published i =
            ((alone.run events).poll devices now).published 0 ∧
          ∀ member ∈ g.members,
            (((m.run events).observe devices now member.tunnel).signal = .recent ↔
              ∃ age, handshakeAge devices now member.tunnel = some age ∧
                age < g.healthyAfter)) ↔
        ∀ member ∈ g.members, ∀ age, handshakeAge devices now member.tunnel = some age →
          age < g.healthyAfter →
          ∀ other ∈ cfg.groups, other.has member.tunnel → age < other.healthyAfter) := by
  obtain ⟨hvalid, rfl⟩ := newMonitor_eq_ok.mp h
  have hmem : g ∈ cfg.groups := List.mem_of_getElem? hg
  have halone : ({ cfg with groups := [g] } : Settings).Valid := by
    refine ⟨hvalid.interval, hvalid.probe, fun g' hg' => ?_⟩
    rw [List.mem_singleton.mp hg']
    exact hvalid.group g hmem
  refine ⟨_, newMonitor_eq_ok.mpr ⟨halone, rfl⟩, ?_⟩
  have hhas : ∀ member ∈ g.members, g.has member.tunnel := fun member hmember =>
    List.mem_map_of_mem hmember
  have hshared : ∀ member ∈ g.members, _ := fun member hmember =>
    run_recent hvalid events devices now hmem (hhas member hmember)
  have hown : ∀ member ∈ g.members, _ := fun member hmember =>
    run_recent halone events devices now (List.mem_singleton_self g) (hhas member hmember)
  constructor
  · rintro ⟨-, hrecent⟩ member hmember age hage hlt
    obtain ⟨age', hage', hall⟩ :=
      (hshared member hmember).mp ((hrecent member hmember).mpr ⟨age, hage, hlt⟩)
    rw [hage] at hage'
    cases hage'
    exact hall
  · intro hbelow
    have hrecent : ∀ member ∈ g.members,
        (((cfg.monitor.run events).observe devices now member.tunnel).signal = .recent ↔
          ∃ age, handshakeAge devices now member.tunnel = some age ∧ age < g.healthyAfter) := by
      intro member hmember
      rw [hshared member hmember]
      refine exists_congr fun age => and_congr_right fun hage => ?_
      exact ⟨fun hall => hall g hmem (hhas member hmember), hbelow member hmember age hage⟩
    refine ⟨?_, hrecent⟩
    apply run_published_congr hvalid halone rfl hg rfl
    intro member hmember
    rw [hrecent member hmember, hown member hmember]
    refine exists_congr fun age => and_congr_right fun _ => ?_
    simp [hhas member hmember]

/-- A group that counts a handshake of three minutes, and one that shares a tunnel with it and
counts half a minute only. -/
def sharedSettings : Settings :=
  ⟨10, [⟨"strict", [⟨"wg0", 51⟩], 30⟩, ⟨"relaxed", [⟨"wg0", 51⟩, ⟨"wg1", 52⟩], 180⟩], none⟩

def sharedDevices : Devices := fun tunnel =>
  if tunnel = "wg0" then some [⟨some 0, 0, 0⟩] else some [⟨some 55, 0, 0⟩]

/-- Twenty seconds after the handshake the limits agree. -/
theorem group_alone_iff_young : ∃ m alone, newMonitor sharedSettings = .ok m ∧
    newMonitor { sharedSettings with
      groups := [⟨"relaxed", [⟨"wg0", 51⟩, ⟨"wg1", 52⟩], 180⟩] } = .ok alone ∧
    (m.poll sharedDevices 20).published 1 = (alone.poll sharedDevices 20).published 0 := by
  have hm : newMonitor sharedSettings = .ok sharedSettings.monitor := by rfl
  obtain ⟨alone, halone, hiff⟩ := group_alone_iff hm (i := 1) rfl [] sharedDevices 20
  have hyoung : ∀ tunnel age, handshakeAge sharedDevices 20 tunnel = some age → age ≤ 20 := by
    intro tunnel age hage
    by_cases hname : tunnel = "wg0"
    · simp [handshakeAge, sharedDevices, hname] at hage
      omega
    · simp [handshakeAge, sharedDevices, hname] at hage
      omega
  have hlimit : ∀ other ∈ sharedSettings.groups, 20 < other.healthyAfter := by decide
  refine ⟨_, alone, hm, halone, (hiff.mpr ?_).1⟩
  intro member _ age hage _ other hother _
  exact lt_of_le_of_lt (hyoung _ age hage) (hlimit other hother)

/-- One minute after the handshake of the preferred member, its own group would still choose it,
and chooses the other member because of the other group's limit. -/
theorem group_not_alone : ∃ m alone, newMonitor sharedSettings = .ok m ∧
    newMonitor { sharedSettings with
      groups := [⟨"relaxed", [⟨"wg0", 51⟩, ⟨"wg1", 52⟩], 180⟩] } = .ok alone ∧
    (m.poll sharedDevices 60).published 1 =
      some (52, [52], some ⟨"relaxed", 52, "ready", "recent_handshake"⟩) ∧
    (alone.poll sharedDevices 60).published 0 =
      some (51, [51, 52], some ⟨"relaxed", 51, "ready", "recent_handshake"⟩) := by
  refine ⟨_, _, rfl, rfl, ?_, ?_⟩
  · decide +kernel
  · decide +kernel

end SakhtarWg.Health
