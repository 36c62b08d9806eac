import SakhtarWg.EgressMetrics

/-!
# The shutdown summary

When the server has drained it logs what it has counted. The totals of dial attempts and of
resolutions are looked up under keys that are spelled here again, without the egress.
-/

namespace SakhtarWg.Dns

def Request.name : Request → String
  | .hit => "hit"
  | .miss => "miss"
  | .stale => "stale"
  | .negative => "negative"
  | .refresh => "refresh"
  | .rejected => "rejection"

/-- A resolution counter is its count and its total duration. -/
structure MetricsSnapshot where
  entriesPositive : ℤ
  entriesNegative : ℤ
  evictionsPositive : ℕ
  evictionsNegative : ℕ
  requests : Request → ℕ
  pending : ℤ
  rejectedPending : ℕ
  resolutions : AList fun _ : String => ℕ × ℕ

def Metrics.snapshot (m : Metrics) : MetricsSnapshot where
  entriesPositive := m.entries .positive
  entriesNegative := m.entries .negative
  evictionsPositive := m.evictions .positive
  evictionsNegative := m.evictions .negative
  requests := m.requests
  pending := m.pending
  rejectedPending := m.rejected
  resolutions := m.resolution

end SakhtarWg.Dns

namespace SakhtarWg.Proxy
open Counters Dns

inductive ProxyProtocol
  | tls | http
  deriving DecidableEq

inductive ListenerClass
  | loopback | nonLoopback
  deriving DecidableEq

/-- Every reason there is; the dialer itself gives two of them. -/
inductive RejectionKey.Reason
  | sourceDenied | parseError | destinationDenied | overload | dialError
  deriving DecidableEq

structure RejectionKey where
  protocol : ProxyProtocol
  reason : RejectionKey.Reason
  listenerClass : ListenerClass
  deriving DecidableEq

structure SessionAggregate where
  sessions : ℕ
  clientBytes : ℕ
  backendBytes : ℕ
  totalDuration : ℤ

/-- What the server has counted; `dns` is absent while no configuration is loaded. -/
structure ServerMetrics where
  rejections : AList fun _ : RejectionKey => ℕ
  aggregates : AList fun _ : String => SessionAggregate
  dns : Option Metrics
  connectMetrics : ConnectMetrics

/-- A line of the summary, with the values its format takes. -/
inductive SummaryLine
  /-- "proxy: rejections protocol=%s reason=%s listener=%s total=%d" -/
  | rejections (key : RejectionKey) (total : ℕ)
  /-- "proxy: sessions outcome=%s total=%d client_bytes=%d backend_bytes=%d total_duration=%s" -/
  | sessions (outcome : String) (aggregate : SessionAggregate)
  /-- "dns: cache entries_positive=%d entries_negative=%d evictions_positive=%d
  evictions_negative=%d pending=%d rejected_pending=%d" -/
  | cache (entriesPositive entriesNegative : ℤ) (evictionsPositive evictionsNegative : ℕ)
      (pending : ℤ) (rejectedPending : ℕ)
  /-- "dns: requests result=%s total=%d" -/
  | requests (result : String) (total : ℕ)
  /-- "dns: resolutions outcome=%s egress_class=%s total=%d total_duration=%s" -/
  | resolutions (outcome egressClass : String) (total totalDuration : ℕ)
  /-- "proxy: backend_connect_attempts outcome=%s egress_class=%s total=%d" -/
  | connectAttempts (outcome egressClass : String) (total : ℕ)

def egressClasses : List String := ["direct", "marked"]

def resolutionOutcomes : List String := ["positive", "nxdomain", "nodata", "transient"]

def connectOutcomes : List String := ["success", "failure"]

/-- The lines in order; the entries of a map stand in the order of its iteration. -/
def logMetricSummary (s : ServerMetrics) : List SummaryLine :=
  s.rejections.entries.map (fun e => .rejections e.1 e.2) ++
  s.aggregates.entries.map (fun e => .sessions e.1 e.2) ++
  (match s.dns with
    | none => []
    | some metrics =>
      let m := metrics.snapshot
      [.cache m.entriesPositive m.entriesNegative m.evictionsPositive m.evictionsNegative
        m.pending m.rejectedPending] ++
      [.hit, .miss, .stale, .negative, .refresh, .rejected].map (fun r : Dns.Request =>
        .requests r.name (m.requests r)) ++
      egressClasses.flatMap fun egressClass => resolutionOutcomes.map fun outcome =>
        let resolution := valueAt m.resolutions (outcome ++ "|" ++ egressClass)
        .resolutions outcome egressClass resolution.1 resolution.2) ++
  egressClasses.flatMap fun egressClass => connectOutcomes.map fun outcome =>
    .connectAttempts outcome egressClass
      (valueAt s.connectMetrics.snapshot (outcome ++ "|" ++ egressClass))

/-! ## What the lines report -/

theorem connectAttempts_mem {s : ServerMetrics} {outcome egressClass : String} {total : ℕ} :
    .connectAttempts outcome egressClass total ∈ logMetricSummary s ↔
      outcome ∈ connectOutcomes ∧ egressClass ∈ egressClasses ∧
        total = valueAt s.connectMetrics.snapshot (outcome ++ "|" ++ egressClass) := by
  unfold logMetricSummary
  rw [List.mem_append]
  constructor
  · rintro (h | h)
    · cases hdns : s.dns <;> simp [hdns] at h
    · obtain ⟨c, hc, h⟩ := List.mem_flatMap.mp h
      obtain ⟨o, ho, h⟩ := List.mem_map.mp h
      cases h
      exact ⟨ho, hc, rfl⟩
  · rintro ⟨ho, hc, rfl⟩
    exact .inr (List.mem_flatMap.mpr ⟨_, hc, List.mem_map.mpr ⟨_, ho, rfl⟩⟩)

theorem resolutions_mem {s : ServerMetrics} {metrics : Metrics} (hdns : s.dns = some metrics)
    {outcome egressClass : String} {total duration : ℕ} :
    .resolutions outcome egressClass total duration ∈ logMetricSummary s ↔
      outcome ∈ resolutionOutcomes ∧ egressClass ∈ egressClasses ∧
        (total, duration) = valueAt metrics.resolution (outcome ++ "|" ++ egressClass) := by
  unfold logMetricSummary
  rw [hdns]
  simp only [List.mem_append]
  constructor
  · rintro (((h | h) | ((h | h) | h)) | h)
    · simp at h
    · simp at h
    · simp at h
    · simp at h
    · obtain ⟨c, hc, h⟩ := List.mem_flatMap.mp h
      obtain ⟨o, ho, h⟩ := List.mem_map.mp h
      cases h
      exact ⟨ho, hc, rfl⟩
    · simp at h
  · rintro ⟨ho, hc, heq⟩
    refine .inl (.inr (.inr (List.mem_flatMap.mpr ⟨_, hc, List.mem_map.mpr ⟨_, ho, ?_⟩⟩)))
    have hsnapshot : metrics.snapshot.resolutions = metrics.resolution := rfl
    simp only [hsnapshot, ← heq]

/-- For each outcome and class there is a line with the number of such calls. -/
structure Reports (attempts : List (Bool × String)) (resolutions : List Resolution)
    (lines : List SummaryLine) : Prop where
  connect : ∀ outcome ∈ connectOutcomes, ∀ egressClass ∈ egressClasses,
    .connectAttempts outcome egressClass (attempts.countP fun call =>
      outcomeOf call.1 = outcome ∧ classOf call.2 = egressClass) ∈ lines
  dns : ∀ outcome ∈ resolutionOutcomes, ∀ egressClass ∈ egressClasses, ∃ duration,
    .resolutions outcome egressClass (resolutions.countP fun call =>
      call.rcode.clamped.string = outcome ∧ classOf call.egress = egressClass) duration ∈ lines

/-- A server after the given attempts and resolutions, whatever else it has counted. -/
def ServerMetrics.after (s : ServerMetrics) (metrics : Metrics) (attempts : List (Bool × String))
    (resolutions : List Resolution) : ServerMetrics :=
  { s with
    dns := some { metrics with resolution := (Metrics.resolved resolutions).resolution }
    connectMetrics := ConnectMetrics.recorded attempts }

theorem outcomeOf_mem (success : Bool) : outcomeOf success ∈ connectOutcomes := by
  cases success <;> decide

theorem classOf_mem (egress : String) : classOf egress ∈ egressClasses := by
  unfold classOf
  split <;> decide

theorem clamped_mem (rcode : RCode) : rcode.clamped.string ∈ resolutionOutcomes := by
  cases rcode <;> simp [RCode.clamped, RCode.string, resolutionOutcomes]

/-- No counter of attempts has a key of two parts. -/
theorem connect_total_zero (attempts : List (Bool × String)) {outcome egressClass : String}
    (houtcome : outcome ∈ connectOutcomes) (hclass : egressClass ∈ egressClasses) :
    valueAt (ConnectMetrics.recorded attempts).snapshot (outcome ++ "|" ++ egressClass) = 0 := by
  have htwo : ∀ o ∈ connectOutcomes, ∀ c ∈ egressClasses,
      (partsOf (o ++ "|" ++ c)).length = 2 := by
    decide
  have hlength := htwo outcome houtcome egressClass hclass
  have hpos : ∀ key, 0 < (partsOf key).length := fun key =>
    List.length_pos_iff.mpr (Text.splitOn_ne_nil '|' key.toList)
  have habsent : outcome ++ "|" ++ egressClass ∉ (ConnectMetrics.recorded attempts).entries := by
    intro hmem
    rw [recorded_entries] at hmem
    obtain hmem | ⟨call, -, hkey | hkey⟩ := exists_of_mem_bookAll hmem
    · exact AList.notMem_empty _ hmem
    · have hthree := hpos (egressOf call.2)
      have hparts : partsOf (connectBooking call).own = _ := partsOf_connectKey call
      rw [hkey, hparts, List.length_cons, List.length_cons] at hlength
      omega
    · have hthree := hpos "other"
      have hparts : partsOf (connectBooking call).reserve = _ := partsOf_connectReserve call
      rw [hkey, hparts, List.length_cons, List.length_cons] at hlength
      omega
  rw [valueAt, ConnectMetrics.snapshot, AList.lookup_eq_none.mpr habsent, Option.getD_none]

/-- Keys spelled alike have the same outcome and egress. -/
theorem spelled_inj {outcome outcome' : String} (h : '|' ∉ outcome.toList)
    (h' : '|' ∉ outcome'.toList) {egress egress' : String} :
    outcome ++ "|" ++ egress = outcome' ++ "|" ++ egress' ↔
      outcome = outcome' ∧ egress = egress' := by
  constructor
  · intro heq
    have hparts := congrArg partsOf heq
    rw [partsOf_append h, partsOf_append h'] at hparts
    have hout : outcome = outcome' := String.toList_inj.mp (List.cons.inj hparts).1
    subst hout
    exact ⟨rfl, (String.append_right_inj _).mp heq⟩
  · rintro ⟨rfl, rfl⟩
    rfl

theorem resolutionOutcomes_bar {outcome : String} (h : outcome ∈ resolutionOutcomes) :
    '|' ∉ outcome.toList := by
  have hall : ∀ o ∈ resolutionOutcomes, '|' ∉ o.toList := by decide
  exact hall outcome h

/-- What the counters hold for an outcome and an egress with the class's name is at most what was
resolved through an egress of that name, and all of it when no other egress is used. -/
theorem resolution_total (resolutions : List Resolution) {outcome egressClass : String}
    (houtcome : outcome ∈ resolutionOutcomes) (hclass : egressClass ∈ egressClasses) :
    let total := (valueAt (Metrics.resolved resolutions).resolution
      (outcome ++ "|" ++ egressClass)).1
    let own := resolutions.countP fun call =>
      call.rcode.clamped.string = outcome ∧ egressOf call.egress = egressClass
    total ≤ own ∧ ((∀ call ∈ resolutions, egressOf call.egress ∈ egressClasses) → total = own) := by
  have hown : ∀ call : Resolution, (resolutionBooking call).own = outcome ++ "|" ++ egressClass ↔
      call.rcode.clamped.string = outcome ∧ egressOf call.egress = egressClass := fun call =>
    spelled_inj (clamped_bar call.rcode) (resolutionOutcomes_bar houtcome)
  have hamounts : (amounts resolutionBooking
      (fun call => (resolutionBooking call).own = outcome ++ "|" ++ egressClass)
      resolutions).1 = resolutions.countP fun call =>
        call.rcode.clamped.string = outcome ∧ egressOf call.egress = egressClass := by
    rw [resolution_amounts, List.countP_eq_length_filter]
    simp only [hown, Resolution.sum]
  dsimp only
  rw [resolved_resolution, ← hamounts]
  constructor
  · have hreserve : ∀ call, (resolutionBooking call).reserve ≠ outcome ++ "|" ++ egressClass := by
      intro call heq
      have hall : ∀ o ∈ resolutionOutcomes, ∀ c ∈ egressClasses,
          o ++ "|" ++ c ∉ resolutionReserves := by
        decide
      exact hall outcome houtcome egressClass hclass (heq ▸ resolutionReserve_mem call)
    obtain ⟨lost, hlost⟩ := valueAt_bookAll_add (4 * Dns.maxEgressLabels) ∅ hreserve resolutions
    have hfst := congrArg Prod.fst hlost
    simp only [Prod.fst_add, valueAt_empty, zero_add] at hfst
    omega
  · intro hfew
    have hkeys : ∀ call ∈ resolutions, (resolutionBooking call).own ∈
        resolutionOutcomes.flatMap fun o => egressClasses.map fun c => o ++ "|" ++ c := by
      intro call hcall
      exact List.mem_flatMap.mpr ⟨call.rcode.clamped.string, clamped_mem call.rcode,
        List.mem_map.mpr ⟨egressOf call.egress, hfew call hcall, rfl⟩⟩
    rw [bookAll_of_few (by decide) hkeys fun k hk => absurd hk (AList.notMem_empty k),
      ← sumOver_eq_valueAt, sumOver_gather, sumOver_empty, zero_add]
    rfl

/-- A strictly weaker property counts more. -/
theorem countP_lt_countP {α : Type} {l : List α} {q r : α → Bool} (h : ∀ x, q x = true → r x = true)
    {x : α} (hx : x ∈ l) (hq : q x = false) (hr : r x = true) : l.countP q < l.countP r := by
  obtain ⟨before, later, rfl⟩ := List.append_of_mem hx
  have hbefore : before.countP q ≤ before.countP r := List.countP_mono_left fun y _ => h y
  have hlater : later.countP q ≤ later.countP r := List.countP_mono_left fun y _ => h y
  simp only [List.countP_append, List.countP_cons, hq, hr, if_true, Bool.false_eq_true, if_false]
  omega

theorem classOf_eq_direct {egress : String} : classOf egress = "direct" ↔
    egressOf egress = "direct" := by
  unfold classOf
  by_cases h : egressOf egress = directEgress
  · rw [if_pos h]
    exact iff_of_true rfl h
  · rw [if_neg h]
    exact iff_of_false (by decide) h

theorem classOf_marked {egress : String} (h : egressOf egress ≠ "direct") :
    classOf egress = "marked" := if_neg h

/-- With the names of the two classes as the only egresses, class and egress are the same. -/
theorem classOf_eq_egressOf {egress : String} (h : egressOf egress ∈ egressClasses) :
    classOf egress = egressOf egress := by
  obtain h | h : egressOf egress = "direct" ∨ egressOf egress = "marked" := by
    simpa [egressClasses] using h
  · rw [h, classOf_eq_direct.mpr h]
  · rw [h, classOf_marked (by rw [h]; decide)]

def idleServer : ServerMetrics := ⟨∅, ∅, none, ConnectMetrics.zero⟩

end SakhtarWg.Proxy
