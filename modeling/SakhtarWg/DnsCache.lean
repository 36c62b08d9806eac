import Mathlib.Logic.Function.Basic
import SakhtarWg.DnsTypes

/-!
# The sharded resolution cache

State and critical sections of the cache. Every section that the source runs under
one lock is one function here; the machine at the end interleaves them. Map
iteration order, clock readings and resolver answers are arguments of the actions.
-/

namespace SakhtarWg.Dns
open Text Netip

inductive Class
  | positive | negative
  deriving DecidableEq

inductive Request
  | hit | miss | stale | negative | refresh | rejected
  deriving DecidableEq

structure CacheEntry where
  result : Result := {}
  err : Option Error := none
  stale : Result := {}
  staleUntil : ℤ := 0
  deriving DecidableEq

/-- `class` is a keyword here, hence the longer name. -/
def CacheEntry.entryClass (e : CacheEntry) : Class :=
  if e.result.rcode = .success then .positive else .negative

abbrev Entries := AList fun _ : Key => CacheEntry

structure Shard where
  entries : Entries
  counts : Class → ℤ
  positiveCap : ℤ
  negativeCap : ℤ

def Shard.capacity (s : Shard) : Class → ℤ
  | .positive => s.positiveCap
  | .negative => s.negativeCap

structure Metrics where
  entries : Class → ℤ
  evictions : Class → ℕ
  requests : Request → ℕ
  pending : ℤ
  rejected : ℕ
  resolution : AList fun _ : String => ℕ × ℕ

def Metrics.zero : Metrics := ⟨fun _ => 0, fun _ => 0, fun _ => 0, 0, 0, ∅⟩

def Metrics.addEntries (m : Metrics) (c : Class) (d : ℤ) : Metrics :=
  { m with entries := Function.update m.entries c (m.entries c + d) }

def Metrics.addEviction (m : Metrics) (c : Class) : Metrics :=
  { m with evictions := Function.update m.evictions c (m.evictions c + 1) }

def Metrics.addRequest (m : Metrics) (r : Request) : Metrics :=
  { m with requests := Function.update m.requests r (m.requests r + 1) }

def maxEgressLabels : ℕ := 16

/-- One upstream resolution, attributed to its egress; beyond the cap it folds into `other`. -/
def Metrics.recordResolution (m : Metrics) (rcode : RCode) (egress : String) (elapsed : ℤ) :
    Metrics :=
  let rcode := match rcode with
    | .unknown _ => RCode.transient
    | r => r
  let egress := if egress = "" then "direct" else egress
  let key := rcode.string ++ "|" ++ egress
  let key := if key ∉ m.resolution ∧ maxEgressLabels * 4 ≤ m.resolution.keys.length
    then rcode.string ++ "|other" else key
  let old := (m.resolution.lookup key).getD (0, 0)
  { m with resolution := m.resolution.insert key (old.1 + 1, old.2 + elapsed.toNat) }

/-! ## Sections under one shard's lock -/

/-- What a section under a shard's lock sees and changes. -/
structure Locked where
  shard : Shard
  metrics : Metrics

def Locked.deleteLocked (w : Locked) (k : Key) (entry : CacheEntry) : Locked :=
  let c := entry.entryClass
  { shard := { w.shard with
      entries := w.shard.entries.erase k
      counts := Function.update w.shard.counts c (w.shard.counts c - 1) }
    metrics := w.metrics.addEntries c (-1) }

/-- Visits the first `limit` entries of the iteration order. -/
def Locked.sweepLocked (w : Locked) (now : ℤ) (limit : ℕ) (order : List Key) : Locked :=
  (order.take limit).foldl (fun w k =>
    match w.shard.entries.lookup k with
    | some entry =>
      if ¬now < entry.result.expiresAt ∧ ¬now < entry.staleUntil then w.deleteLocked k entry
      else w
    | none => w) w

/-- Deletes the first entry of the class in the iteration order. -/
def Locked.evict (w : Locked) (c : Class) (order : List Key) : Locked :=
  match order.findSome? fun k => (w.shard.entries.lookup k).bind fun e =>
      if e.entryClass = c then some (k, e) else none with
  | some (k, victim) =>
    let w := w.deleteLocked k victim
    { w with metrics := w.metrics.addEviction c }
  | none => w

/-- `insert` up to the eviction: the sweep, then the previous entry of the key goes. -/
def Locked.beforeEvict (w : Locked) (k : Key) (now : ℤ) (sweep : List Key) : Locked :=
  let w := w.sweepLocked now 4 sweep
  match w.shard.entries.lookup k with
  | some previous => w.deleteLocked k previous
  | none => w

/-- `sweep` is the iteration order of the sweep, `victims` that of the eviction loop. -/
def Locked.insert (w : Locked) (k : Key) (entry : CacheEntry) (now : ℤ)
    (sweep victims : List Key) : Locked :=
  let w := w.beforeEvict k now sweep
  let c := entry.entryClass
  let w := if w.shard.capacity c ≤ w.shard.counts c then w.evict c victims else w
  { shard := { w.shard with
      entries := w.shard.entries.insert k entry
      counts := Function.update w.shard.counts c (w.shard.counts c + 1) }
    metrics := w.metrics.addEntries c 1 }

def canServeStale (p : Policy) (entry : CacheEntry) (now : ℤ) : Bool :=
  p.stalePolicy = .transient ∧ entry.stale.addrs ≠ [] ∧ now < entry.staleUntil

/-- The entry, if any, and whether it is fresh; an expired one is removed. -/
def Locked.takeEntry (p : Policy) (w : Locked) (k : Key) (now : ℤ) :
    Locked × CacheEntry × Bool :=
  match w.shard.entries.lookup k with
  | none => (w, {}, false)
  | some entry =>
    if now < entry.result.expiresAt then (w, entry, true)
    else if entry.result.rcode = .transient ∧ canServeStale p entry now = true then
      (w, entry, false)
    else (w.deleteLocked k entry, entry, false)

def Locked.invalidate (w : Locked) (k : Key) : Locked :=
  match w.shard.entries.lookup k with
  | none => w
  | some entry =>
    let w := w.deleteLocked k entry
    { w with metrics := w.metrics.addEviction entry.entryClass }

/-! ## Shards -/

def defaultShardCount : ℤ := 16

def Policy.shardCount (p : Policy) : ℕ :=
  (min defaultShardCount (min p.positiveCapacity p.negativeCapacity)).toNat

def distributedCapacity (total : ℤ) (shards index : ℕ) : ℤ :=
  let capacity := total.tdiv shards
  if (index : ℤ) < total.tmod shards then capacity + 1 else capacity

/-- FNV-1a, 64 bits. -/
def fnv64a (bytes : List UInt8) : UInt64 :=
  bytes.foldl (fun h b => (h ^^^ b.toUInt64) * 1099511628211) 14695981039346656037

def utf8 (s : String) : List UInt8 := s.toList.flatMap String.utf8EncodeChar

def Key.bytes (k : Key) : List UInt8 :=
  utf8 k.host ++ [k.family.byte] ++ utf8 k.egress ++ utf8 k.resolver ++
    (List.range 8).map fun i => (k.generation >>> (UInt64.ofNat (i * 8))).toUInt8

/-- A policy that `NewCache` accepts. -/
structure ValidPolicy extends Policy where
  valid : toPolicy.validate = .ok ()

theorem ValidPolicy.shardCount_pos (p : ValidPolicy) : 0 < p.shardCount := by
  obtain ⟨h1, h2, -⟩ := Policy.capacity_pos p.valid
  simp only [Policy.shardCount, defaultShardCount]
  omega

def ValidPolicy.shardFor (p : ValidPolicy) (k : Key) : Fin p.shardCount :=
  ⟨(fnv64a k.bytes).toNat % p.shardCount, Nat.mod_lt _ p.shardCount_pos⟩

/-! ## The cache and its callers -/

/-- How far the goroutine behind a flight has come. -/
inductive Phase
  | resolving
  | inserting (entry : CacheEntry) (now : ℤ)
  | finishing (entry : CacheEntry) (now : ℤ)
  | closed
  deriving DecidableEq

structure Flight where
  key : Key
  query : Query
  stale : Result
  staleUntil : ℤ
  serveStale : Bool
  phase : Phase
  result : Result := {}
  err : Option Error := none
  deriving DecidableEq

/-- Where a `Resolve` call stands between two critical sections. -/
inductive Call
  | taking (key : Key) (query : Query) (now : ℤ)
  | starting (key : Key) (query : Query) (stale : Result) (staleUntil : ℤ) (refresh : Bool)
  | joined (flight : ℕ) (stale : Result) (refresh : Bool)
  | waiting (flight : ℕ)
  | returned (result : Result) (err : Option Error)
  deriving DecidableEq

/-- Flights live on the heap: callers keep a pointer after the flight left the table. -/
structure Cache (p : ValidPolicy) where
  shards : Fin p.shardCount → Shard
  flights : AList fun _ : Key => ℕ
  pendingByEgress : AList fun _ : String => ℤ
  metrics : Metrics
  heap : List Flight
  calls : List Call

variable {p : ValidPolicy}

def newCache (p : ValidPolicy) : Cache p where
  shards i := ⟨∅, fun _ => 0, distributedCapacity p.positiveCapacity p.shardCount i,
    distributedCapacity p.negativeCapacity p.shardCount i⟩
  flights := ∅
  pendingByEgress := ∅
  metrics := Metrics.zero
  heap := []
  calls := []

def Cache.lock (c : Cache p) (k : Key) : Locked := ⟨c.shards (p.shardFor k), c.metrics⟩

def Cache.unlock (c : Cache p) (k : Key) (w : Locked) : Cache p :=
  { c with shards := Function.update c.shards (p.shardFor k) w.shard, metrics := w.metrics }

def Cache.request (c : Cache p) (r : Request) : Cache p :=
  { c with metrics := c.metrics.addRequest r }

def Cache.setCall (c : Cache p) (i : ℕ) (call : Call) : Cache p :=
  { c with calls := c.calls.set i call }

def Cache.setFlight (c : Cache p) (f : ℕ) (flight : Flight) : Cache p :=
  { c with heap := c.heap.set f flight }

/-- `Resolve` after `takeEntry`: an answer, or the stale data a flight should carry. -/
def Cache.afterTake (c : Cache p) (i : ℕ) (k : Key) (q : Query) (now : ℤ) (entry : CacheEntry)
    (found : Bool) : Cache p :=
  let miss (stale : Result) (staleUntil : ℤ) :=
    (c.request .miss).setCall i (.starting k q stale staleUntil false)
  let expired :=
    if entry.result.rcode = .success ∧ now < entry.staleUntil then
      miss entry.result entry.staleUntil
    else if entry.result.rcode = .transient ∧ canServeStale p.toPolicy entry now = true then
      c.setCall i (.starting k q entry.stale entry.staleUntil true)
    else miss {} 0
  if found then
    match entry.result.rcode with
    | .success => (c.request .hit).setCall i (.returned entry.result none)
    | .nxdomain | .nodata => (c.request .negative).setCall i (.returned entry.result none)
    | .transient =>
      if canServeStale p.toPolicy entry now then
        (c.request .stale).setCall i (.returned entry.stale none)
      else (c.request .negative).setCall i (.returned entry.result entry.err)
    | .unknown _ => expired
  else expired

def Cache.take (c : Cache p) (i : ℕ) (k : Key) (q : Query) (now : ℤ) : Cache p :=
  let (w, entry, found) := (c.lock k).takeEntry p.toPolicy k now
  (c.unlock k w).afterTake i k q now entry found

/-- The flight handed out when the recheck under the flight lock finds a fresh entry. -/
def freshFlight (p : Policy) (k : Key) (q : Query) (entry : CacheEntry) (now : ℤ) : Flight :=
  let f : Flight := ⟨k, q, {}, 0, false, .closed, {}, none⟩
  if entry.result.rcode = .transient ∧ canServeStale p entry now = true then
    { f with result := entry.stale }
  else if entry.result.rcode = .transient then { f with result := entry.result, err := entry.err }
  else { f with result := entry.result }

/-- `startFlight`, one section under the flight lock; the two readings are its clock calls. -/
def Cache.startFlight (c : Cache p) (i : ℕ) (k : Key) (q : Query) (stale : Result)
    (staleUntil : ℤ) (refresh : Bool) (now now' : ℤ) : Cache p :=
  match c.flights.lookup k with
  | some f => c.setCall i (.joined f stale refresh)
  | none =>
    match ((c.shards (p.shardFor k)).entries.lookup k).filter (now < ·.result.expiresAt) with
    | some entry =>
      { c with heap := c.heap ++ [freshFlight p.toPolicy k q entry now'] }.setCall i
        (.joined c.heap.length stale refresh)
    | none =>
      let pending := (c.pendingByEgress.lookup k.egress).getD 0
      if p.maxPending ≤ pending then
        { c with metrics := { c.metrics with rejected := c.metrics.rejected + 1 } }.request
          .rejected |>.setCall i (.returned {} (some .pendingLimit))
      else
        { c with
          flights := c.flights.insert k c.heap.length
          pendingByEgress := c.pendingByEgress.insert k.egress (pending + 1)
          metrics := { c.metrics with pending := c.metrics.pending + 1 }
          heap := c.heap ++ [Flight.mk k q stale staleUntil refresh .resolving {} none] }.setCall i
            (.joined c.heap.length stale refresh)

/-- The non-blocking look at the flight right after `startFlight`. -/
def Cache.check (c : Cache p) (i f : ℕ) (flight : Flight) (stale : Result) (refresh : Bool) :
    Cache p :=
  if flight.phase = .closed then c.setCall i (.returned flight.result flight.err)
  else if refresh then
    ((c.request .refresh).request .stale).setCall i (.returned stale none)
  else if flight.serveStale ∧ flight.stale.addrs ≠ [] then
    (c.request .stale).setCall i (.returned flight.stale none)
  else c.setCall i (.waiting f)

/-- `runFlight` up to the insertion: the resolver has answered, the clock reads `now`. -/
def Cache.answer (c : Cache p) (f : ℕ) (flight : Flight) (answer : Answer) (now elapsed : ℤ) :
    Cache p :=
  let (raw, rawErr) := callResolver answer
  let (result, err) := p.normalizeResult raw rawErr now
  let entry : CacheEntry := { result := result, err := err }
  let entry :=
    if result.rcode = .success then
      { entry with staleUntil := result.expiresAt + p.staleWindow }
    else if result.rcode = .transient ∧ flight.stale.addrs ≠ [] ∧ now < flight.staleUntil then
      { entry with stale := flight.stale, staleUntil := flight.staleUntil }
    else entry
  { c with metrics := c.metrics.recordResolution result.rcode flight.query.egress elapsed
    }.setFlight f { flight with phase := .inserting entry now }

/-- The last section of `runFlight`: publish the outcome and leave the flight table. -/
def Cache.finish (c : Cache p) (f : ℕ) (flight : Flight) (entry : CacheEntry) (now : ℤ) :
    Cache p :=
  let serve : Bool := entry.result.rcode = .transient ∧ canServeStale p.toPolicy entry now = true
  let c := if serve then c.request .stale else c
  let pending := (c.pendingByEgress.lookup flight.key.egress).getD 0 - 1
  { c with
    flights := c.flights.erase flight.key
    pendingByEgress := if pending ≤ 0 then c.pendingByEgress.erase flight.key.egress
      else c.pendingByEgress.insert flight.key.egress pending
    metrics := { c.metrics with pending := c.metrics.pending - 1 } }.setFlight f
      { flight with
        phase := .closed
        result := if serve then entry.stale else entry.result
        err := if serve then none else entry.err }

/-! ## Interleavings -/

/-- One critical section of some goroutine, with everything the environment chooses. -/
inductive Action
  | resolve (query : Query) (hasResolver : Bool) (now : ℤ)
  | take (call : ℕ)
  | start (call : ℕ) (now now' : ℤ)
  | check (call : ℕ)
  | receive (call : ℕ)
  | cancel (call : ℕ) (reason : String)
  | answer (flight : ℕ) (answer : Answer) (now elapsed : ℤ)
  | insert (flight : ℕ) (sweep victims : List Key)
  | finish (flight : ℕ)
  | invalidate (query : Query)

def Cache.spawn (c : Cache p) (call : Call) : Cache p := { c with calls := c.calls ++ [call] }

/-- The action when it is enabled. The two orders of an insertion list exactly the keys that
the respective loop ranges over. -/
def Cache.step (c : Cache p) : Action → Option (Cache p)
  | .resolve query hasResolver now =>
    if hasResolver then
      match makeKey query with
      | .error e => some (c.spawn (.returned {} (some e)))
      | .ok k => some (c.spawn (.taking k query now))
    else some (c.spawn (.returned {} (some .nilResolver)))
  | .take i =>
    match c.calls[i]? with
    | some (.taking k query now) => some (c.take i k query now)
    | _ => none
  | .start i now now' =>
    match c.calls[i]? with
    | some (.starting k query stale staleUntil refresh) =>
      some (c.startFlight i k query stale staleUntil refresh now now')
    | _ => none
  | .check i =>
    match c.calls[i]? with
    | some (.joined f stale refresh) =>
      (c.heap[f]?).map fun flight => c.check i f flight stale refresh
    | _ => none
  | .receive i =>
    match c.calls[i]? with
    | some (.waiting f) =>
      match c.heap[f]? with
      | some flight =>
        if flight.phase = .closed then some (c.setCall i (.returned flight.result flight.err))
        else none
      | none => none
    | _ => none
  | .cancel i reason =>
    match c.calls[i]? with
    | some (.waiting _) => some (c.setCall i (.returned {} (some (.context reason))))
    | _ => none
  | .answer f answer now elapsed =>
    match c.heap[f]? with
    | some flight =>
      if flight.phase = .resolving then some (c.answer f flight answer now elapsed) else none
    | none => none
  | .insert f sweep victims =>
    match c.heap[f]? with
    | some flight =>
      match flight.phase with
      | .inserting entry now =>
        let k := flight.key
        if sweep.Perm (c.shards (p.shardFor k)).entries.keys ∧
            victims.Perm (((c.lock k).beforeEvict k now sweep).shard.entries.keys) then
          some ((c.unlock k ((c.lock k).insert k entry now sweep victims)).setFlight f
            { flight with phase := .finishing entry now })
        else none
      | _ => none
    | none => none
  | .finish f =>
    match c.heap[f]? with
    | some flight =>
      match flight.phase with
      | .finishing entry now => some (c.finish f flight entry now)
      | _ => none
    | none => none
  | .invalidate query =>
    match makeKey query with
    | .error _ => some c
    | .ok k => some (c.unlock k ((c.lock k).invalidate k))

/-- States reached from a new cache by any interleaving. -/
inductive Cache.Reachable (p : ValidPolicy) : Cache p → Prop
  | new : Cache.Reachable p (newCache p)
  | step {c c' : Cache p} {a : Action} : Cache.Reachable p c → c.step a = some c' →
      Cache.Reachable p c'

end SakhtarWg.Dns
