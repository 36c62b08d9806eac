import Mathlib.Data.Set.Basic
import SakhtarWg.EgressNames
import SakhtarWg.MainLoop

/-!
# Route refreshes beside reloads

The updater runs beside the main loop: a cycle takes the base, fetches its sources one
after the other, merges and queues the result on a channel of one slot. The main loop
takes from the channel and handles reloads; each of the two handlers reads the updater
at one moment and assigns the configuration at a later one.
-/

namespace SakhtarWg
open Text Netip Fallible Machine

/-! ## The two threads -/

/-- A good set of a source, fetched or read from the disk cache. -/
inductive Origin
  | fetch (source : String) (cidrs : List String)
  | disk (cache : String → List String)

/-- The updater keeps a set sorted and without duplicates. -/
def Origin.Gives (name : String) (cidrs : List String) : Origin → Prop
  | .fetch source body => source = name ∧ cidrs = sortDedup body
  | .disk cache => cidrs = sortDedup (cache name)

/-- Where the updater's goroutine is. The first configuration is sent before any cycle. -/
inductive Worker
  | sending (queued : Config) (first : Bool)
  | starting
  | fetching (base : Config) (todo : List RouteSource)
  | waiting

/-- Where the main loop is: between events, or inside a handler that has read the updater. -/
inductive Handler
  | ready
  | refreshing (merged : Config)
  | applying (newCfg next : Config)
  | swapping (newCfg next : Config)

/-- `committed` and `past` record the last file that was committed and every good set so far. -/
structure Daemon where
  cfg : Config
  updater : Option RouteUpdater
  worker : Worker
  channel : Option Config
  handler : Handler
  committed : Config
  past : List Origin

/-- The sources of a cycle, each name once. -/
def distinctSources (seen : List String) : List RouteSource → List RouteSource
  | [] => []
  | s :: rest =>
    if s.name ∈ seen then distinctSources seen rest
    else s :: distinctSources (s.name :: seen) rest

def cycleSources (base : Config) : List RouteSource :=
  distinctSources [] (base.tunnels.flatMap (·.routeSources))

def currentRoutes (u : Option RouteUpdater) (queued : Config) : Config :=
  match u with
  | none => queued
  | some u => u.merge

/-- What either thread does next. A fetch carries the body, if there was one; a reload carries
what the outside decides: the WireGuard client, whether the candidate was applied, and the disk
cache in case an updater is started. -/
inductive DaemonEvent
  | wake
  | capture
  | fetch (body : Option String)
  | merge
  | send
  | tick
  | receive
  | reload (decoded : Config)
  | decide (client : Except String Unit) (applied : Bool) (cache : String → List String)
  | assign

section
variable (x : External) (decode : String → Except String (List String))

/-- One fetch of a cycle; a failure keeps the last good set. -/
def Daemon.fetch (s : Daemon) (body : Option String) : Daemon :=
  match s.updater, s.worker with
  | some u, .fetching base (source :: todo) =>
    match body.map (parseSource decode source.format) with
    | some (.ok cidrs) =>
      { s with
        updater := some (u.record source.name cidrs)
        worker := .fetching base todo
        past := .fetch source.name cidrs :: s.past }
    | _ => { s with worker := .fetching base todo }
  | _, _ => s

/-- The candidate of a reload that needs no restart. -/
def Daemon.reload (s : Daemon) (decoded : Config) : Daemon :=
  match decoded.parse x with
  | .error _ => s
  | .ok newCfg =>
    match reloadRequiresRestart s.cfg newCfg with
    | .error _ => s
    | .ok _ =>
      { s with handler := .applying newCfg (LoopState.candidate ⟨s.cfg, s.updater⟩ newCfg) }

/-- The updater after a commit: a new base, or a first updater. -/
def Daemon.swap (s : Daemon) (newCfg next : Config) (cache : String → List String) : Daemon :=
  match s.updater with
  | some u => { s with updater := some (u.setBase newCfg), handler := .swapping newCfg next }
  | none =>
    match startUpdater newCfg cache with
    | none => { s with handler := .swapping newCfg next }
    | some u =>
      { s with
        updater := some u
        worker := .sending u.merge true
        handler := .swapping newCfg next
        past := .disk cache :: s.past }

/-- Every refusal leaves the handler and nothing else. -/
def Daemon.decide (s : Daemon) (client : Except String Unit) (applied : Bool)
    (cache : String → List String) : Daemon :=
  match s.handler with
  | .applying newCfg next =>
    if (next.newHealthMonitor client).toBool && (reloadPreflight next).toBool && applied then
      s.swap newCfg next cache
    else { s with handler := .ready }
  | _ => s

def Daemon.assign (s : Daemon) : Daemon :=
  match s.handler with
  | .refreshing merged => { s with cfg := merged, handler := .ready }
  | .swapping newCfg next => { s with cfg := next, committed := newCfg, handler := .ready }
  | _ => s

/-- A step that its thread cannot take now changes nothing. -/
def daemonStep (s : Daemon) : DaemonEvent → Daemon
  | .wake =>
    match s.worker with
    | .waiting => { s with worker := .starting }
    | _ => s
  | .capture =>
    match s.updater, s.worker with
    | some u, .starting => { s with worker := .fetching u.base (cycleSources u.base) }
    | _, _ => s
  | .fetch body => s.fetch decode body
  | .merge =>
    match s.updater, s.worker with
    | some u, .fetching _ [] => { s with worker := .sending u.merge false }
    | _, _ => s
  -- a send waits for the slot
  | .send =>
    match s.updater, s.worker, s.channel with
    | some _, .sending queued first, none =>
      { s with channel := some queued, worker := if first then .starting else .waiting }
    | _, _, _ => s
  | .tick => s
  | .receive =>
    match s.handler, s.channel with
    | .ready, some queued =>
      { s with channel := none, handler := .refreshing (currentRoutes s.updater queued) }
    | _, _ => s
  | .reload decoded =>
    match s.handler with
    | .ready => s.reload x decoded
    | _ => s
  | .decide client applied cache => s.decide client applied cache
  | .assign => s.assign

end

/-- The disk cache is read where an updater is started. -/
def Daemon.start (c : Config) (cache : String → List String) : Daemon :=
  match startUpdater c cache with
  | some u => ⟨c, some u, .sending u.merge true, none, .ready, c, [.disk cache]⟩
  | none => ⟨c, none, .waiting, none, .ready, c, []⟩

/-! ## What the main loop may hold -/

/-- The networks a list of texts denotes. -/
def networks (routes : List String) : Set Prefix :=
  {p | ∃ r ∈ routes, ∃ q, parsePrefix r = some q ∧ q.masked = p}

def Known (past : List Origin) (name : String) (cidrs : List String) : Prop :=
  ∃ o ∈ past, o.Gives name cidrs

/-- The tunnel of a file with other routes: its static networks, and of each of its own sources
nothing or one good set. -/
def Routed (past : List Origin) (t t' : Tunnel) : Prop :=
  t' = { t with routes := t'.routes } ∧
    ∃ fetched : String → List String,
      (∀ s ∈ t.routeSources, fetched s.name = [] ∨ Known past s.name (fetched s.name)) ∧
      networks t'.routes =
        networks t.routes ∪ {p | ∃ s ∈ t.routeSources, p ∈ networks (fetched s.name)}

/-- A configuration that is a file in everything but the routes of its tunnels. -/
def Follows (past : List Origin) (file cfg : Config) : Prop :=
  cfg = { file with tunnels := cfg.tunnels } ∧
    List.Forall₂ (Routed past) file.tunnels cfg.tunnels

def Daemon.Follows (s : Daemon) : Prop := SakhtarWg.Follows s.past s.committed s.cfg

/-! ## Good sets -/

/-- Every set the updater holds is good. -/
def Sound (past : List Origin) (u : RouteUpdater) : Prop :=
  ∀ name, u.fetched name = [] ∨ Known past name (u.fetched name)

theorem Known.cons {past : List Origin} {name : String} {cidrs : List String}
    (h : Known past name cidrs) (o : Origin) : Known (o :: past) name cidrs := by
  obtain ⟨o', ho', hgives⟩ := h
  exact ⟨o', List.mem_cons_of_mem _ ho', hgives⟩

theorem Sound.cons {past : List Origin} {u : RouteUpdater} (h : Sound past u) (o : Origin) :
    Sound (o :: past) u := by
  intro name
  rcases h name with hnil | hknown
  · exact .inl hnil
  · exact .inr (hknown.cons o)

theorem Sound.record {past : List Origin} {u : RouteUpdater} (h : Sound past u)
    (source : String) (cidrs : List String) :
    Sound (.fetch source cidrs :: past) (u.record source cidrs) := by
  intro name
  by_cases hname : name = source
  · right
    rw [hname]
    exact ⟨_, List.mem_cons_self .., rfl, by simp [RouteUpdater.record]⟩
  · have hsame : (u.record source cidrs).fetched name = u.fetched name :=
      Function.update_of_ne hname _ _
    rw [hsame]
    exact h.cons _ name

theorem startUpdater_spec {c : Config} {cache : String → List String} {u : RouteUpdater}
    (h : startUpdater c cache = some u) (past : List Origin) :
    u.base = c ∧ Sound (.disk cache :: past) u := by
  unfold startUpdater at h
  split at h
  · cases h
    exact ⟨rfl, fun name => .inr ⟨_, List.mem_cons_self .., rfl⟩⟩
  · cases h

theorem Follows.cons {past : List Origin} {file cfg : Config} (h : Follows past file cfg)
    (o : Origin) : Follows (o :: past) file cfg := by
  refine ⟨h.1, h.2.imp fun t t' ht => ⟨ht.1, ?_⟩⟩
  obtain ⟨fetched, hgood, hnetworks⟩ := ht.2
  refine ⟨fetched, fun s hs => ?_, hnetworks⟩
  rcases hgood s hs with hnil | hknown
  · exact .inl hnil
  · exact .inr (hknown.cons o)

/-- A file follows itself: no source has given anything yet. -/
theorem follows_self (past : List Origin) (file : Config) : Follows past file file := by
  refine ⟨rfl, List.forall₂_same.mpr fun t _ => ⟨rfl, fun _ => [], fun s _ => .inl rfl, ?_⟩⟩
  ext p
  simp [networks]

/-- A merged tunnel denotes its static networks and what its sources hold. -/
theorem networks_mergeTunnel (u : RouteUpdater) {t : Tunnel}
    (h : ∀ r ∈ t.routes, isIPv4Prefix r = true) :
    networks (u.mergeTunnel t).routes =
      networks t.routes ∪ {p | ∃ s ∈ t.routeSources, p ∈ networks (u.fetched s.name)} := by
  ext p
  constructor
  · intro hp
    obtain ⟨r, hr, q, hq, rfl⟩ := hp
    rcases (mem_mergeTunnel u h).mp hr with ⟨r', hr', q', hq', rfl⟩ | hr
    · left
      obtain ⟨q₀, hq₀, h4⟩ := isIPv4Prefix_iff.mp (h r' hr')
      obtain rfl := Option.some.inj (hq'.symm.trans hq₀)
      rw [parsePrefix_string (by simpa using h4)] at hq
      obtain rfl := Option.some.inj hq
      exact ⟨r', hr', q', hq', (Prefix.masked_masked q').symm⟩
    · right
      obtain ⟨s, hs, hmem⟩ := List.mem_flatMap.mp hr
      exact ⟨s, hs, r, hmem, q, hq, rfl⟩
  · intro hp
    rcases hp with ⟨r, hr, q, hq, rfl⟩ | ⟨s, hs, r, hr, q, hq, rfl⟩
    · obtain ⟨q₀, hq₀, h4⟩ := isIPv4Prefix_iff.mp (h r hr)
      obtain rfl := Option.some.inj (hq.symm.trans hq₀)
      refine ⟨q.masked.string, (mem_mergeTunnel u h).mpr (.inl ⟨r, hr, q, hq, rfl⟩), q.masked,
        parsePrefix_string (by simpa using h4), Prefix.masked_masked q⟩
    · refine ⟨r, (mem_mergeTunnel u h).mpr (.inr ?_), q, hq, rfl⟩
      exact List.mem_flatMap.mpr ⟨s, hs, hr⟩

theorem follows_mergeBase {past : List Origin} {u : RouteUpdater} {file : Config}
    (hu : Sound past u) (hfile : file.Valid) : Follows past file (u.mergeBase file) := by
  refine ⟨rfl, ?_⟩
  show List.Forall₂ (Routed past) file.tunnels (file.tunnels.map u.mergeTunnel)
  rw [List.forall₂_map_right_iff]
  apply List.forall₂_same.mpr
  intro t ht
  refine ⟨rfl, u.fetched, fun s _ => hu s.name, ?_⟩
  exact networks_mergeTunnel u (hfile.tunnel t ht).routes

/-! ## Every interleaving -/

/-- The file the updater merges onto. Between the swap and the assignment it is ahead. -/
def Daemon.base (s : Daemon) : Config :=
  match s.handler with
  | .swapping newCfg _ => newCfg
  | _ => s.committed

/-- What a handler carries is good for the file it is about to be assigned with. -/
def Handler.Carries (past : List Origin) (committed : Config) : Handler → Prop
  | .ready => True
  | .refreshing merged => Follows past committed merged
  | .applying newCfg next => newCfg.Valid ∧ Follows past newCfg next
  | .swapping newCfg next => newCfg.Valid ∧ Follows past newCfg next

structure Daemon.Inv (s : Daemon) : Prop where
  committed : s.committed.Valid
  updater : ∀ u, s.updater = some u → u.base = s.base ∧ Sound s.past u
  idle : s.updater = none → s.channel = none
  cfg : s.Follows
  handler : s.handler.Carries s.past s.committed

theorem Handler.Carries.cons {past : List Origin} {committed : Config} {h : Handler}
    (hc : h.Carries past committed) (o : Origin) : h.Carries (o :: past) committed := by
  cases h with
  | ready => trivial
  | refreshing merged => exact Follows.cons hc o
  | applying newCfg next => exact ⟨hc.1, hc.2.cons o⟩
  | swapping newCfg next => exact ⟨hc.1, hc.2.cons o⟩

theorem Daemon.Inv.fetch {s : Daemon} (h : s.Inv)
    (decode : String → Except String (List String)) (body : Option String) :
    (s.fetch decode body).Inv := by
  unfold Daemon.fetch
  split
  · rename_i u base source todo hu hw
    obtain ⟨hbase, hsound⟩ := h.updater u hu
    split
    · rename_i cidrs hparse
      refine ⟨h.committed, ?_, fun hnone => ?_, h.cfg.cons _, h.handler.cons _⟩
      · intro u' hu'
        obtain rfl := Option.some.inj hu'
        exact ⟨hbase, hsound.record source.name cidrs⟩
      · cases hnone
    · exact ⟨h.committed, h.updater, h.idle, h.cfg, h.handler⟩
  · exact h

theorem Daemon.Inv.reload {s : Daemon} (h : s.Inv) (hready : s.handler = .ready) (x : External)
    (decoded : Config) : (s.reload x decoded).Inv := by
  unfold Daemon.reload
  split
  · exact h
  · rename_i newCfg hparse
    have hvalid := parse_valid hparse
    split
    · exact h
    · have hbase : s.base = s.committed := by simp [Daemon.base, hready]
      refine ⟨h.committed, fun u hu => ?_, h.idle, h.cfg, hvalid, ?_⟩
      · obtain ⟨hub, hsound⟩ := h.updater u hu
        exact ⟨hub.trans hbase, hsound⟩
      · -- the candidate is the file itself, or the file merged with the sets held now
        cases hu : s.updater with
        | none => exact follows_self _ _
        | some u => exact follows_mergeBase (h.updater u hu).2 hvalid

theorem Daemon.Inv.swap {s : Daemon} (h : s.Inv) {newCfg next : Config} (hvalid : newCfg.Valid)
    (hnext : SakhtarWg.Follows s.past newCfg next) (cache : String → List String) :
    (s.swap newCfg next cache).Inv := by
  unfold Daemon.swap
  split
  · rename_i u hu
    refine ⟨h.committed, fun u' hu' => ?_, fun hnone => ?_, h.cfg, hvalid, hnext⟩
    · obtain rfl := Option.some.inj hu'
      exact ⟨rfl, (h.updater u hu).2⟩
    · cases hnone
  · rename_i hnone
    split
    · refine ⟨h.committed, fun u hu => ?_, h.idle, h.cfg, hvalid, hnext⟩
      rw [hnone] at hu
      cases hu
    · rename_i u hstart
      refine ⟨h.committed, fun u' hu' => ?_, fun he => ?_, h.cfg.cons _, hvalid, hnext.cons _⟩
      · obtain rfl := Option.some.inj hu'
        exact startUpdater_spec hstart s.past
      · cases he

theorem Daemon.Inv.decide {s : Daemon} (h : s.Inv) (client : Except String Unit) (applied : Bool)
    (cache : String → List String) : (s.decide client applied cache).Inv := by
  unfold Daemon.decide
  split
  · rename_i newCfg next hh
    have hcarries := h.handler
    rw [hh] at hcarries
    split
    · exact h.swap hcarries.1 hcarries.2 cache
    · have hbase : s.base = s.committed := by simp [Daemon.base, hh]
      refine ⟨h.committed, fun u hu => ?_, h.idle, h.cfg, trivial⟩
      obtain ⟨hub, hsound⟩ := h.updater u hu
      exact ⟨hub.trans hbase, hsound⟩
  · exact h

theorem Daemon.Inv.assign {s : Daemon} (h : s.Inv) : s.assign.Inv := by
  have hcarries := h.handler
  have hupdater := h.updater
  unfold Daemon.assign
  split
  · rename_i merged hh
    rw [hh] at hcarries
    simp only [Daemon.base, hh] at hupdater
    exact ⟨h.committed, hupdater, h.idle, hcarries, trivial⟩
  · rename_i newCfg next hh
    rw [hh] at hcarries
    simp only [Daemon.base, hh] at hupdater
    exact ⟨hcarries.1, hupdater, h.idle, hcarries.2, trivial⟩
  · exact h

theorem Daemon.Inv.receive {s : Daemon} (h : s.Inv) (hready : s.handler = .ready)
    {queued : Config} (hqueued : s.channel = some queued) :
    Daemon.Inv { s with
      channel := none, handler := .refreshing (currentRoutes s.updater queued) } := by
  have hbase : s.base = s.committed := by simp [Daemon.base, hready]
  refine ⟨h.committed, fun u hu => ?_, fun _ => rfl, h.cfg, ?_⟩
  · obtain ⟨hub, hsound⟩ := h.updater u hu
    exact ⟨hub.trans hbase, hsound⟩
  · -- whatever was queued, the routes are merged anew onto the current base
    cases hu : s.updater with
    | none =>
      rw [h.idle hu] at hqueued
      cases hqueued
    | some u =>
      obtain ⟨hub, hsound⟩ := h.updater u hu
      have hmerge : currentRoutes (some u) queued = u.mergeBase s.committed := by
        rw [← hbase, ← hub]
        rfl
      show SakhtarWg.Follows s.past s.committed (currentRoutes (some u) queued)
      rw [hmerge]
      exact follows_mergeBase hsound h.committed

/-- Steps of the worker touch neither the updater's data nor the main loop. -/
theorem Daemon.Inv.worker {s : Daemon} (h : s.Inv) (w : Worker) : Daemon.Inv { s with worker := w } :=
  ⟨h.committed, h.updater, h.idle, h.cfg, h.handler⟩

theorem Daemon.Inv.step (x : External) (decode : String → Except String (List String))
    (s : Daemon) (e : DaemonEvent) (h : s.Inv) : (daemonStep x decode s e).Inv := by
  cases e with
  | wake =>
    simp only [daemonStep]
    split
    · exact h.worker _
    · exact h
  | capture =>
    simp only [daemonStep]
    split
    · exact h.worker _
    · exact h
  | fetch body => exact h.fetch decode body
  | merge =>
    simp only [daemonStep]
    split
    · exact h.worker _
    · exact h
  | send =>
    simp only [daemonStep]
    split
    · rename_i u queued first hu hw hc
      refine ⟨h.committed, h.updater, fun hnone => ?_, h.cfg, h.handler⟩
      rw [show s.updater = none from hnone] at hu
      cases hu
    · exact h
  | tick => exact h
  | receive =>
    simp only [daemonStep]
    split
    · rename_i queued hready hqueued
      exact h.receive hready hqueued
    · exact h
  | reload decoded =>
    simp only [daemonStep]
    split
    · rename_i hready
      exact h.reload hready x decoded
    · exact h
  | decide client applied cache => exact h.decide client applied cache
  | assign => exact h.assign

theorem Daemon.Inv.start {c : Config} (h : c.Valid) (cache : String → List String) :
    (Daemon.start c cache).Inv := by
  unfold Daemon.start
  split
  · rename_i u hu
    refine ⟨h, fun u' hu' => ?_, fun _ => rfl, follows_self _ _, trivial⟩
    obtain rfl := Option.some.inj hu'
    exact startUpdater_spec hu []
  · refine ⟨h, fun u hu => ?_, fun _ => rfl, follows_self _ _, trivial⟩
    cases hu

/-- In every interleaving of the updater with refreshes and reloads, the main loop holds the last
committed file with routes of that file and of its sources. -/
theorem refresh_follows_file (x : External) (decode : String → Except String (List String))
    {decoded c : Config} (h : decoded.parse x = .ok c) (cache : String → List String)
    (events : List DaemonEvent) :
    Always (daemonStep x decode) Daemon.Follows (Daemon.start c cache) events :=
  always_of_inv _ (fun s e => Daemon.Inv.step x decode s e) (fun _ hs => hs.cfg) events
    (Daemon.Inv.start (parse_valid h) cache)

/-- The first file's source under another tunnel, and no second tunnel. -/
def movedFile : Config :=
  sampleFile [sampleTunnel "wg2" 3 ["4.0.0.0/8"]
    [⟨"provider", "https://example.net/list", "cidr-lines", ""⟩]] ⟨true, ["192.168.0.0/16"], ""⟩

/-- A reload commits while a merge of the old file is queued and the next one is waiting. -/
def reloadWhileQueued : List DaemonEvent :=
  [.send, .capture, .fetch (some "3.0.0.0/8"), .merge, .reload movedFile,
    .decide (.ok ()) true fun _ => [], .assign]

/-- The main loop then takes what was queued. -/
def refreshAfterReload : List DaemonEvent := reloadWhileQueued ++ [.receive, .assign]

/-- The queued old file is received after the commit, and does not come back. -/
theorem refresh_follows_file_moved :
    sourcedFile.parse sampleExternal = .ok sourcedFile.normalize ∧
    (reloadWhileQueued.foldl (daemonStep sampleExternal .error)
      (Daemon.start sourcedFile.normalize fun _ => [])).channel.map (·.tunnelNames) =
        some ["wg0", "wg1"] ∧
    (refreshAfterReload.foldl (daemonStep sampleExternal .error)
      (Daemon.start sourcedFile.normalize fun _ => [])).cfg.tunnels.map
        (fun t => (t.name, t.routes)) = [("wg2", ["3.0.0.0/8", "4.0.0.0/8"])] ∧
    Always (daemonStep sampleExternal .error) Daemon.Follows
      (Daemon.start sourcedFile.normalize fun _ => []) refreshAfterReload := by
  have hload : sourcedFile.parse sampleExternal = .ok sourcedFile.normalize := by decide +kernel
  exact ⟨hload, by decide +kernel, by decide +kernel,
    refresh_follows_file sampleExternal .error hload (fun _ => []) _⟩

end SakhtarWg
