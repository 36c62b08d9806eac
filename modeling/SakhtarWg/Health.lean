import Mathlib.Data.List.AList
import SakhtarWg.Fallible
import SakhtarWg.Inventory
import SakhtarWg.Text

/-!
# The health monitor

Groups of tunnels, the member each group prefers, and the order in which its other
members are tried. Instants and durations are nanoseconds; a device is what the
WireGuard client reports of it.
-/

namespace SakhtarWg.Health
open Fallible Text

abbrev FwMark := BitVec 32

structure Member where
  tunnel : String
  mark : FwMark
  deriving DecidableEq

structure Group where
  name : String
  members : List Member
  healthyAfter : ℤ
  deriving DecidableEq

/-! ## Probes -/

structure ProbePolicy where
  maxAge : ℤ
  failAfter : ℤ
  recoverAfter : ℤ
  deriving DecidableEq

def ProbePolicy.validate (p : ProbePolicy) : Except String Unit :=
  require (!(p.maxAge ≤ 0 || p.failAfter < 1 || p.recoverAfter < 1)) "health: invalid probe policy"

inductive ProbeVerdict
  | unknown | passing | failing | stale
  deriving DecidableEq

def ProbeVerdict.eligible (v : ProbeVerdict) : Bool := v = .unknown || v = .passing

structure ProbeState where
  lastAt : ℤ
  passing : Bool
  failures : ℤ
  successes : ℤ
  deriving DecidableEq

structure ProbeTracker where
  policy : ProbePolicy
  byTunnel : AList fun _ : String => ProbeState

def boolCount (value : Bool) : ℤ := if value then 1 else 0

/-- The state of a tunnel after one more result. -/
def ProbeState.record (policy : ProbePolicy) (s : ProbeState) (success : Bool) (time : ℤ) :
    ProbeState :=
  let s := { s with lastAt := if s.lastAt < time then time else s.lastAt }
  if success then
    { s with
      successes := s.successes + 1
      failures := 0
      passing := if policy.recoverAfter ≤ s.successes + 1 then true else s.passing }
  else
    { s with
      failures := s.failures + 1
      successes := 0
      passing := if policy.failAfter ≤ s.failures + 1 then false else s.passing }

def ProbeTracker.record (t : ProbeTracker) (tunnel : String) (success : Bool) (time : ℤ) :
    ProbeTracker :=
  -- with no history the first result decides alone
  let state := match t.byTunnel.lookup tunnel with
    | none => ⟨time, success, boolCount (!success), boolCount success⟩
    | some s => s.record t.policy success time
  { t with byTunnel := t.byTunnel.insert tunnel state }

def ProbeTracker.snapshot (t : ProbeTracker) (tunnels : List String) :
    List (String × ProbeState) :=
  tunnels.filterMap fun tunnel => (t.byTunnel.lookup tunnel).map fun s => (tunnel, s)

/-- States of tunnels that have a result already are not replaced. -/
def ProbeTracker.restore (t : ProbeTracker) (states : List (String × ProbeState)) : ProbeTracker :=
  let keep := fun (m : AList fun _ : String => ProbeState) (s : String × ProbeState) =>
    if s.1 ∈ m then m else m.insert s.1 s.2
  { t with byTunnel := states.foldl keep t.byTunnel }

/-- Without a tracker every verdict is unknown. -/
def verdict (tracker : Option ProbeTracker) (tunnel : String) (now : ℤ) : ProbeVerdict :=
  match tracker with
  | none => .unknown
  | some t =>
    match t.byTunnel.lookup tunnel with
    | none => .unknown
    | some s =>
      if t.policy.maxAge < now - s.lastAt then .stale
      else if s.passing then .passing
      else .failing

/-! ## Selection -/

inductive SessionSignal
  | recent | idleUnknown | failed
  deriving DecidableEq

/-- A member, the state and the reason that are reported, and the failover order. -/
structure Selection where
  chosen : FwMark
  state : String
  reason : String
  order : List FwMark
  deriving DecidableEq

def memberMarks (members : List Member) : List FwMark := members.map (·.mark)

/-- The mark of the member at an index. -/
def markAt (members : List Member) (i : ℕ) : FwMark := ((memberMarks members)[i]?).getD 0

def chosenFirst (members : List Member) (chosen : ℕ) : List FwMark :=
  markAt members chosen :: memberMarks (members.eraseIdx chosen)

/-- What the loop over the members has found. -/
structure Found where
  firstRecent : Option ℕ
  eligible : List FwMark
  verdict : Option ProbeVerdict

def Found.add (signal : String → SessionSignal) (judge : String → ProbeVerdict) (f : Found)
    (member : Member × ℕ) : Found :=
  if signal member.1.tunnel ≠ .recent then f
  else
    let f := { f with firstRecent := f.firstRecent.or (some member.2) }
    let v := judge member.1.tunnel
    if v.eligible then
      { f with
        verdict := if f.eligible = [] then some v else f.verdict
        eligible := f.eligible ++ [member.1.mark] }
    else f

def findMembers (signal : String → SessionSignal) (judge : String → ProbeVerdict)
    (members : List Member) : Found :=
  members.zipIdx.foldl (Found.add signal judge) ⟨none, [], none⟩

def selectMember (signal : String → SessionSignal) (judge : String → ProbeVerdict)
    (members : List Member) : Selection :=
  let f := findMembers signal judge members
  match f.eligible with
  | mark :: _ =>
    ⟨mark, "ready", if f.verdict = some .passing then "recent_handshake_probe_passing"
      else "recent_handshake", f.eligible⟩
  | [] =>
    match f.firstRecent with
    | some i => ⟨markAt members i, "degraded", "probe_failing_fail_open_recent_handshake",
        chosenFirst members i⟩
    | none => ⟨markAt members 0, "degraded", "no_recent_handshake_fail_open_primary",
        memberMarks members⟩

/-! ## The monitor -/

structure GroupState where
  group : Group
  active : BitVec 32
  order : List FwMark

structure TunnelSnapshot where
  tunnel : String
  signal : SessionSignal
  handshakeAge : ℤ
  receiveBytes : ℤ
  transmitBytes : ℤ
  error : String
  deriving DecidableEq

structure GroupSnapshot where
  name : String
  activeMark : FwMark
  state : String
  reason : String
  deriving DecidableEq

structure Snapshot where
  observedAt : ℤ
  tunnels : List TunnelSnapshot
  groups : List GroupSnapshot
  deriving DecidableEq

/-- Before the first poll there is no snapshot. -/
structure Monitor where
  interval : ℤ
  groups : List GroupState
  probes : Option ProbeTracker
  snapshot : Option Snapshot

structure Settings where
  interval : ℤ
  groups : List Group
  probe : Option ProbePolicy

def newGroup (g : Group) : Except String GroupState := do
  require (!(g.name = "" || g.members = [] || g.healthyAfter ≤ 0)) "health: invalid group"
  return ⟨g, markAt g.members 0, memberMarks g.members⟩

def newMonitor (cfg : Settings) : Except String Monitor := do
  require (0 < cfg.interval) "health: interval must be positive"
  let probes ← match cfg.probe with
    | none => pure none
    | some policy => (policy.validate).map fun _ => some ⟨policy, ∅⟩
  let groups ← cfg.groups.mapM newGroup
  return ⟨cfg.interval, groups, probes, none⟩

/-- The group under a name; assignments to a map leave the last. -/
def Monitor.byName (m : Monitor) (name : String) : Option GroupState :=
  m.groups.reverse.find? fun s => s.group.name = name

/-- A peer without a handshake has none. -/
structure Peer where
  lastHandshake : Option ℤ
  receiveBytes : ℤ
  transmitBytes : ℤ

/-- The peers of a device, or none where the query fails. -/
abbrev Devices := String → Option (List Peer)

/-- The smallest age limit among the groups of a tunnel; zero is none. -/
def Monitor.threshold (m : Monitor) (tunnel : String) : ℤ :=
  (m.groups.flatMap fun s => s.group.members.map fun member => (member, s.group)).foldl
    (fun current mg =>
      if mg.1.tunnel = tunnel && (current = 0 || mg.2.healthyAfter < current) then
        mg.2.healthyAfter
      else current) 0

/-- Every tunnel of a group once, in text order. -/
def Monitor.names (m : Monitor) : List String :=
  sortStrings (m.groups.flatMap fun s => s.group.members.map (·.tunnel)).dedup

def Monitor.observe (m : Monitor) (devices : Devices) (now : ℤ) (tunnel : String) :
    TunnelSnapshot :=
  match devices tunnel with
  | none => ⟨tunnel, .failed, 0, 0, 0, "device query failed"⟩
  | some [] => ⟨tunnel, .failed, 0, 0, 0, "peer missing"⟩
  | some (peer :: _) =>
    match peer.lastHandshake with
    | none => ⟨tunnel, .idleUnknown, 0, peer.receiveBytes, peer.transmitBytes, ""⟩
    | some handshake =>
      let age := max (now - handshake) 0
      ⟨tunnel, if age < m.threshold tunnel then .recent else .idleUnknown, age,
        peer.receiveBytes, peer.transmitBytes, ""⟩

def Monitor.selection (m : Monitor) (devices : Devices) (now : ℤ) (s : GroupState) : Selection :=
  selectMember (fun tunnel => (m.observe devices now tunnel).signal)
    (fun tunnel => verdict m.probes tunnel now) s.group.members

def Monitor.poll (m : Monitor) (devices : Devices) (now : ℤ) : Monitor :=
  { m with
    groups := m.groups.map fun s =>
      let sel := m.selection devices now s
      { s with active := sel.chosen, order := sel.order }
    snapshot := some ⟨now, m.names.map (m.observe devices now), m.groups.map fun s =>
      let sel := m.selection devices now s
      ⟨s.group.name, sel.chosen, sel.state, sel.reason⟩⟩ }

def Monitor.observeProbe (m : Monitor) (tunnel : String) (success : Bool) (time : ℤ) : Monitor :=
  { m with probes := m.probes.map fun t => t.record tunnel success time }

/-- The states of the previous monitor's tracker, for the tunnels that are unchanged. -/
def Monitor.inheritProbes (m : Monitor) (previous : Option Monitor) (tunnels : List String) :
    Monitor :=
  match m.probes, previous.bind (·.probes) with
  | some t, some old => { m with probes := some (t.restore (old.snapshot tunnels)) }
  | _, _ => m

/-- What can happen to a monitor while it is in use. -/
inductive Event
  | poll (devices : Devices) (now : ℤ)
  | probe (tunnel : String) (success : Bool) (time : ℤ)
  | inherit (previous : Option Monitor) (tunnels : List String)

def Monitor.step (m : Monitor) : Event → Monitor
  | .poll devices now => m.poll devices now
  | .probe tunnel success time => m.observeProbe tunnel success time
  | .inherit previous tunnels => m.inheritProbes previous tunnels

def Monitor.run (m : Monitor) (events : List Event) : Monitor := events.foldl Monitor.step m

/-! ## Probe results that are held -/

/-- The state a tracker holds of a tunnel. -/
def tracked (tracker : Option ProbeTracker) (tunnel : String) : Option ProbeState :=
  tracker.bind fun t => t.byTunnel.lookup tunnel

/-- Only a tunnel without any result has no verdict, at whatever instant. -/
theorem verdict_eq_unknown {tracker : Option ProbeTracker} {tunnel : String} {now : ℤ} :
    verdict tracker tunnel now = .unknown ↔ tracked tracker tunnel = none := by
  cases tracker with
  | none => exact iff_of_true rfl rfl
  | some t =>
    simp only [verdict, tracked, Option.bind_some]
    cases t.byTunnel.lookup tunnel with
    | none => exact iff_of_true rfl rfl
    | some s =>
      dsimp only
      split
      · simp
      · split <;> simp

theorem ProbeTracker.record_lookup_ne (t : ProbeTracker) {tunnel other : String}
    (h : other ≠ tunnel) (success : Bool) (time : ℤ) :
    (t.record tunnel success time).byTunnel.lookup other = t.byTunnel.lookup other :=
  AList.lookup_insert_ne h

theorem ProbeTracker.restore_lookup (t : ProbeTracker) (states : List (String × ProbeState))
    (tunnel : String) : (t.restore states).byTunnel.lookup tunnel =
      (t.byTunnel.lookup tunnel).or ((states.find? fun s => s.1 = tunnel).map (·.2)) := by
  unfold ProbeTracker.restore
  dsimp only
  induction states generalizing t with
  | nil => simp
  | cons s states ih =>
    rw [List.foldl_cons]
    by_cases hmem : s.1 ∈ t.byTunnel
    · rw [if_pos hmem, ih t]
      by_cases hs : s.1 = tunnel
      · subst hs
        obtain ⟨held, hheld⟩ := Option.isSome_iff_exists.mp (AList.lookup_isSome.mpr hmem)
        rw [hheld]
        rfl
      · rw [List.find?_cons_of_neg (by simpa using hs)]
    · rw [if_neg hmem, ih { t with byTunnel := t.byTunnel.insert s.1 s.2 }]
      dsimp only
      by_cases hs : s.1 = tunnel
      · subst hs
        rw [AList.lookup_insert, AList.lookup_eq_none.mpr hmem, List.find?_cons_of_pos (by simp)]
        rfl
      · rw [AList.lookup_insert_ne (Ne.symm hs), List.find?_cons_of_neg (by simpa using hs)]

theorem ProbeTracker.snapshot_find (t : ProbeTracker) (tunnels : List String) (tunnel : String) :
    (((t.snapshot tunnels).find? fun s => s.1 = tunnel).map (·.2)) =
      if tunnel ∈ tunnels then t.byTunnel.lookup tunnel else none := by
  unfold ProbeTracker.snapshot
  induction tunnels with
  | nil => rfl
  | cons name tunnels ih =>
    by_cases hname : name = tunnel
    · subst hname
      cases hlookup : t.byTunnel.lookup name with
      | none =>
        rw [List.filterMap_cons_none (by rw [hlookup]; rfl), ih, hlookup]
        simp
      | some s =>
        rw [List.filterMap_cons_some (by rw [hlookup]; rfl),
          List.find?_cons_of_pos (by simp), if_pos List.mem_cons_self]
        rfl
    · have hskip : (if tunnel ∈ name :: tunnels then t.byTunnel.lookup tunnel else none) =
          if tunnel ∈ tunnels then t.byTunnel.lookup tunnel else none := by
        simp [Ne.symm hname]
      rw [hskip, ← ih]
      cases hlookup : t.byTunnel.lookup name with
      | none => rw [List.filterMap_cons_none (by rw [hlookup]; rfl)]
      | some s =>
        rw [List.filterMap_cons_some (by rw [hlookup]; rfl),
          List.find?_cons_of_neg (by simpa using hname)]

/-- What a monitor without results of its own holds after it has inherited. -/
theorem Monitor.inheritProbes_tracked {m : Monitor} (h : ∀ t ∈ m.probes, t.byTunnel = ∅)
    (previous : Option Monitor) (tunnels : List String) (tunnel : String) :
    tracked (m.inheritProbes previous tunnels).probes tunnel =
      if m.probes.isSome ∧ tunnel ∈ tunnels then
        tracked (previous.bind (·.probes)) tunnel
      else none := by
  cases hprobes : m.probes with
  | none => simp [Monitor.inheritProbes, hprobes, tracked]
  | some t =>
    have hempty : t.byTunnel.lookup tunnel = none := by
      rw [h t (by rw [hprobes]; rfl)]
      rfl
    cases hprevious : previous.bind (·.probes) with
    | none => simp [Monitor.inheritProbes, hprobes, hprevious, tracked, hempty]
    | some old =>
      simp only [Monitor.inheritProbes, hprobes, hprevious, tracked, Option.bind_some]
      rw [t.restore_lookup, hempty, Option.none_or, old.snapshot_find]
      simp

/-! ## The order stays within the group -/

/-- A failover order that can be used for a group. -/
def Covers (members : List Member) (order : List FwMark) : Prop :=
  order ≠ [] ∧ ∀ mark ∈ order, mark ∈ memberMarks members

theorem memberMarks_covers {members : List Member} (h : members ≠ []) :
    Covers members (memberMarks members) := by
  refine ⟨?_, fun mark hmark => hmark⟩
  simpa [memberMarks] using h

section
variable (signal : String → SessionSignal) (judge : String → ProbeVerdict)

/-- The member has a recent handshake. -/
def Member.recent (m : Member) : Bool := signal m.tunnel = .recent

/-- The member has a recent handshake and no probe rules it out. -/
def Member.usable (m : Member) : Bool := m.recent signal && (judge m.tunnel).eligible

variable {signal judge}

theorem Found.add_eligible (f : Found) (x : Member × ℕ) :
    (f.add signal judge x).eligible =
      f.eligible ++ if x.1.usable signal judge then [x.1.mark] else [] := by
  unfold Found.add
  by_cases hsignal : signal x.1.tunnel = .recent
  · by_cases hjudge : (judge x.1.tunnel).eligible
    · simp [hsignal, hjudge, Member.usable, Member.recent]
    · simp [hsignal, hjudge, Member.usable]
  · simp [hsignal, Member.usable, Member.recent]

theorem Found.add_firstRecent (f : Found) (x : Member × ℕ) :
    (f.add signal judge x).firstRecent =
      f.firstRecent.or (if x.1.recent signal then some x.2 else none) := by
  unfold Found.add
  by_cases hsignal : signal x.1.tunnel = .recent
  · by_cases hjudge : (judge x.1.tunnel).eligible
    · simp [hsignal, hjudge, Member.recent]
    · simp [hsignal, hjudge, Member.recent]
  · simp [hsignal, Member.recent]

/-- The loop collects the marks of the usable members and the index of the first recent one. -/
theorem findMembers_eq (members : List Member) :
    (findMembers signal judge members).eligible =
        memberMarks (members.filter (·.usable signal judge)) ∧
      (findMembers signal judge members).firstRecent = members.findIdx? (·.recent signal) := by
  suffices hloop : ∀ (todo : List Member) (n : ℕ) (f : Found),
      ((todo.zipIdx n).foldl (Found.add signal judge) f).eligible =
          f.eligible ++ memberMarks (todo.filter (·.usable signal judge)) ∧
        ((todo.zipIdx n).foldl (Found.add signal judge) f).firstRecent =
          f.firstRecent.or ((todo.findIdx? (·.recent signal)).map (· + n)) by
    simpa [findMembers] using hloop members 0 ⟨none, [], none⟩
  intro todo
  induction todo with
  | nil => simp [memberMarks]
  | cons x todo ih =>
    intro n f
    obtain ⟨heligible, hfirst⟩ := ih (n + 1) (f.add signal judge (x, n))
    rw [List.zipIdx_cons, List.foldl_cons, heligible, hfirst, Found.add_eligible,
      Found.add_firstRecent]
    constructor
    · by_cases husable : x.usable signal judge = true
      · simp [husable, memberMarks]
      · simp [husable]
    · by_cases hrecent : x.recent signal = true
      · simp [hrecent, List.findIdx?_cons]
      · have hshift : ∀ k, k + (n + 1) = k + 1 + n := by omega
        simp [hrecent, List.findIdx?_cons, Function.comp_def, hshift]

/-- The three orders: the usable members; everybody behind the first recent member; everybody. -/
theorem selectMember_cases {members : List Member} (h : members ≠ []) :
    let sel := selectMember signal judge members
    (∃ m rest, members.filter (·.usable signal judge) = m :: rest ∧
      sel.chosen = m.mark ∧ sel.state = "ready" ∧ sel.order = memberMarks (m :: rest)) ∨
    (members.filter (·.usable signal judge) = [] ∧ ∃ front m back,
      members = front ++ m :: back ∧ (∀ x ∈ front, x.recent signal = false) ∧
      m.recent signal = true ∧ sel.chosen = m.mark ∧ sel.state = "degraded" ∧
      sel.order = m.mark :: memberMarks (front ++ back)) ∨
    ((∀ x ∈ members, x.recent signal = false) ∧ ∃ m rest, members = m :: rest ∧
      sel.chosen = m.mark ∧ sel.state = "degraded" ∧ sel.order = memberMarks members) := by
  intro sel
  obtain ⟨heligible, hfirst⟩ := @findMembers_eq signal judge members
  cases hfilter : members.filter (·.usable signal judge) with
  | cons m rest =>
    rw [hfilter] at heligible
    refine .inl ⟨m, rest, rfl, ?_⟩
    simp [sel, selectMember, heligible, memberMarks]
  | nil =>
    rw [hfilter] at heligible
    right
    cases hindex : members.findIdx? (·.recent signal) with
    | none =>
      rw [hindex] at hfirst
      obtain ⟨m, rest, rfl⟩ := List.exists_cons_of_ne_nil h
      refine .inr ⟨by simpa [List.findIdx?_eq_none_iff] using hindex, m, rest, rfl, ?_⟩
      simp [sel, selectMember, heligible, hfirst, memberMarks, markAt]
    | some i =>
      rw [hindex] at hfirst
      obtain ⟨hlt, hrecent, hbefore⟩ := List.findIdx?_eq_some_iff_getElem.mp hindex
      have hsplit : members = members.take i ++ members[i] :: members.drop (i + 1) := by
        rw [List.getElem_cons_drop, List.take_append_drop]
      refine .inl ⟨rfl, members.take i, members[i], members.drop (i + 1), hsplit, ?_, hrecent, ?_⟩
      · intro x hx
        obtain ⟨j, hj, rfl⟩ := List.mem_take_iff_getElem.mp hx
        simpa using hbefore j (by omega)
      · simp [sel, selectMember, heligible, hfirst, memberMarks, markAt, chosenFirst, hlt,
          List.eraseIdx_eq_take_drop_succ]

theorem selectMember_covers (signal : String → SessionSignal) (judge : String → ProbeVerdict)
    {members : List Member} (h : members ≠ []) :
    Covers members (selectMember signal judge members).order := by
  rcases @selectMember_cases signal judge members h with ⟨m, rest, hfilter, -, -, horder⟩ |
    ⟨-, front, m, back, rfl, -, -, -, -, horder⟩ | ⟨-, m, rest, -, -, -, horder⟩
  · rw [horder, ← hfilter]
    refine ⟨by rw [hfilter]; simp [memberMarks], fun mark hmark => ?_⟩
    exact (List.filter_sublist.map _).subset hmark
  · rw [horder]
    refine ⟨by simp, fun mark hmark => ?_⟩
    simp only [memberMarks, List.map_append, List.map_cons, List.mem_cons, List.mem_append] at hmark ⊢
    tauto
  · rw [horder]
    exact memberMarks_covers h

/-- A member with a recent handshake that no probe rules out is tried. -/
theorem selectMember_eligible {members : List Member} {member : Member} (hmem : member ∈ members)
    (hrecent : signal member.tunnel = .recent) (hjudge : (judge member.tunnel).eligible = true) :
    (selectMember signal judge members).state = "ready" ∧
      member.mark ∈ (selectMember signal judge members).order := by
  have husable : member ∈ members.filter (·.usable signal judge) := by
    simp [hmem, Member.usable, Member.recent, hrecent, hjudge]
  rcases @selectMember_cases signal judge members (List.ne_nil_of_mem hmem) with
    ⟨m, rest, hfilter, -, hstate, horder⟩ | ⟨hnone, -⟩ | ⟨hnone, -⟩
  · rw [hfilter] at husable
    exact ⟨hstate, horder ▸ List.mem_map_of_mem husable⟩
  · rw [hnone] at husable
    cases husable
  · have := hnone member hmem
    simp [Member.recent, hrecent] at this

end

/-- Every group has members, and its order can be used. -/
def Monitor.Ordered (m : Monitor) (groups : List Group) : Prop :=
  m.groups.map (·.group) = groups ∧ ∀ s ∈ m.groups, Covers s.group.members s.order

/-- What a monitor is built from without an error. -/
structure Settings.Valid (cfg : Settings) : Prop where
  interval : 0 < cfg.interval
  probe : ∀ policy, cfg.probe = some policy → policy.validate = .ok ()
  group : ∀ g ∈ cfg.groups, g.name ≠ "" ∧ g.members ≠ [] ∧ 0 < g.healthyAfter

theorem newGroup_eq_ok {g : Group} {s : GroupState} : newGroup g = .ok s ↔
    (g.name ≠ "" ∧ g.members ≠ [] ∧ 0 < g.healthyAfter) ∧
      s = ⟨g, markAt g.members 0, memberMarks g.members⟩ := by
  simp only [newGroup, bind_eq_ok, require_eq_ok, pure_eq_ok, Bool.not_eq_true',
    Bool.or_eq_false_iff, decide_eq_false_iff_not, not_le, exists_const, and_assoc]
  rw [eq_comm (a := s)]

/-- The monitor that is built from settings. -/
def Settings.monitor (cfg : Settings) : Monitor :=
  ⟨cfg.interval, cfg.groups.map fun g => ⟨g, markAt g.members 0, memberMarks g.members⟩,
    cfg.probe.map fun policy => ⟨policy, ∅⟩, none⟩

theorem newMonitor_eq_ok {cfg : Settings} {m : Monitor} :
    newMonitor cfg = .ok m ↔ cfg.Valid ∧ m = cfg.monitor := by
  cases hprobe : cfg.probe with
  | none =>
    simp only [newMonitor, hprobe, bind_eq_ok, require_eq_ok, pure_eq_ok, decide_eq_true_eq,
      mapM_iff fun _ _ => newGroup_eq_ok]
    constructor
    · rintro ⟨_, hinterval, _, rfl, _, ⟨hgroups, rfl⟩, rfl⟩
      exact ⟨⟨hinterval, by simp [hprobe], hgroups⟩, by simp [Settings.monitor, hprobe]⟩
    · rintro ⟨hvalid, rfl⟩
      exact ⟨(), hvalid.interval, _, rfl, _, ⟨hvalid.group, rfl⟩,
        by simp [Settings.monitor, hprobe]⟩
  | some policy =>
    simp only [newMonitor, hprobe, bind_eq_ok, require_eq_ok, pure_eq_ok, decide_eq_true_eq,
      mapM_iff fun _ _ => newGroup_eq_ok]
    constructor
    · rintro ⟨_, hinterval, _, hmap, _, ⟨hgroups, rfl⟩, rfl⟩
      obtain ⟨_, hpolicy, rfl⟩ := map_eq_ok.mp hmap
      refine ⟨⟨hinterval, fun p hp => ?_, hgroups⟩, by simp [Settings.monitor, hprobe]⟩
      rw [hprobe] at hp
      cases hp
      exact hpolicy
    · rintro ⟨hvalid, rfl⟩
      exact ⟨(), hvalid.interval, _, map_eq_ok.mpr ⟨(), hvalid.probe policy hprobe, rfl⟩, _,
        ⟨hvalid.group, rfl⟩, by simp [Settings.monitor, hprobe]⟩

theorem newMonitor_ordered {cfg : Settings} (h : cfg.Valid) :
    ∃ m, newMonitor cfg = .ok m ∧ m.Ordered cfg.groups := by
  refine ⟨cfg.monitor, newMonitor_eq_ok.mpr ⟨h, rfl⟩, ?_, fun s hs => ?_⟩
  · simp [Settings.monitor, Function.comp_def]
  · obtain ⟨g, hg, rfl⟩ := List.mem_map.mp hs
    exact memberMarks_covers (h.group g hg).2.1

/-- Where names are unique, the entry of a name is the group that has it. -/
theorem Monitor.Ordered.byName {m : Monitor} {groups : List Group} (h : m.Ordered groups)
    (hnames : (groups.map (·.name)).Nodup) {g : Group} (hg : g ∈ groups) :
    ∃ s, m.byName g.name = some s ∧ s.group = g ∧ Covers g.members s.order := by
  rw [← h.1] at hg
  obtain ⟨s, hs, rfl⟩ := List.mem_map.mp hg
  refine ⟨s, ?_, rfl, h.2 s hs⟩
  have hkeys : (m.groups.reverse.map (·.group.name)).Nodup := by
    rw [List.map_reverse, List.nodup_reverse]
    simpa [← h.1, Function.comp_def] using hnames
  exact (find?_key (fun s : GroupState => s.group.name) hkeys).mpr
    ⟨List.mem_reverse.mpr hs, rfl⟩

theorem Monitor.Ordered.byName_none {m : Monitor} {groups : List Group} (h : m.Ordered groups)
    {name : String} (hname : name ∉ groups.map (·.name)) : m.byName name = none := by
  apply List.find?_eq_none.mpr
  intro s hs he
  apply hname
  rw [← h.1, List.map_map]
  exact List.mem_map.mpr ⟨s, List.mem_reverse.mp hs, by simpa using he⟩

theorem Monitor.Ordered.step {m : Monitor} {groups : List Group} (h : m.Ordered groups)
    (hmembers : ∀ g ∈ groups, g.members ≠ []) (event : Event) : (m.step event).Ordered groups := by
  cases event with
  | poll devices now =>
    refine ⟨?_, fun s hs => ?_⟩
    · rw [← h.1]
      simp [Monitor.step, Monitor.poll]
    · obtain ⟨old, hold, rfl⟩ := List.mem_map.mp hs
      apply selectMember_covers
      exact hmembers old.group (by rw [← h.1]; exact List.mem_map_of_mem hold)
  | probe tunnel success time => exact h
  | inherit previous tunnels =>
    simp only [Monitor.step, Monitor.inheritProbes]
    split <;> exact h

theorem Monitor.Ordered.run {m : Monitor} {groups : List Group} (h : m.Ordered groups)
    (hmembers : ∀ g ∈ groups, g.members ≠ []) (events : List Event) :
    (m.run events).Ordered groups := by
  induction events generalizing m with
  | nil => exact h
  | cons event events ih => exact ih (h.step hmembers event)

end SakhtarWg.Health
