import SakhtarWg.Counters
import SakhtarWg.DnsCache

/-!
# Counters by egress

Dial attempts and upstream resolutions are counted under keys that spell the outcome and the
egress, `|` between the parts. A map of such counters takes at most so many keys; a name first
seen after that is counted as `other`.
-/

namespace SakhtarWg.Proxy
open Counters Text

def directEgress : String := "direct"

def maxEgressLabels : ℕ := 16

/-- Backend dial attempts per egress. -/
structure ConnectMetrics where
  entries : AList fun _ : String => ℕ

namespace ConnectMetrics

def zero : ConnectMetrics := ⟨∅⟩

def record (m : ConnectMetrics) (success : Bool) (egress : String) : ConnectMetrics :=
  let egress := if egress = "" then directEgress else egress
  let outcome := if success then "success" else "failure"
  let egressClass := if egress = directEgress then "direct" else "marked"
  let key := outcome ++ "|" ++ egressClass ++ "|" ++ egress
  let key := if key ∉ m.entries ∧ maxEgressLabels * 4 ≤ m.entries.keys.length
    then outcome ++ "|" ++ egressClass ++ "|other" else key
  ⟨m.entries.insert key ((m.entries.lookup key).getD 0 + 1)⟩

/-- The counts, keyed outcome, class and egress. -/
def snapshot (m : ConnectMetrics) : AList fun _ : String => ℕ := m.entries

/-- The counters after a history of attempts. -/
def recorded (calls : List (Bool × String)) : ConnectMetrics :=
  calls.foldl (fun m call => m.record call.1 call.2) zero

end ConnectMetrics

/-! ## What a call is counted under -/

def outcomeOf (success : Bool) : String := if success then "success" else "failure"

/-- An attempt without a name leaves directly. -/
def egressOf (egress : String) : String := if egress = "" then directEgress else egress

def classOf (egress : String) : String :=
  if egressOf egress = directEgress then "direct" else "marked"

/-- The parts of a key. -/
def partsOf (key : String) : List (List Char) := splitOn '|' key.toList

def connectKey (call : Bool × String) : String :=
  outcomeOf call.1 ++ "|" ++ classOf call.2 ++ "|" ++ egressOf call.2

def connectReserve (call : Bool × String) : String :=
  outcomeOf call.1 ++ "|" ++ classOf call.2 ++ "|other"

def connectBooking (call : Bool × String) : Booking String ℕ :=
  ⟨connectKey call, connectReserve call, 1⟩

theorem record_entries (m : ConnectMetrics) (success : Bool) (egress : String) :
    (m.record success egress).entries =
      book (4 * maxEgressLabels) m.entries (connectBooking (success, egress)) := rfl

theorem recorded_entries (calls : List (Bool × String)) :
    (ConnectMetrics.recorded calls).entries =
      bookAll (4 * maxEgressLabels) connectBooking ∅ calls :=
  (List.foldl_hom ConnectMetrics.entries fun m call =>
    (record_entries m call.1 call.2).symm).symm

/-- A key spelled from parts without a separator comes apart again. -/
theorem partsOf_append {part : String} (h : '|' ∉ part.toList) (rest : String) :
    partsOf (part ++ "|" ++ rest) = part.toList :: partsOf rest := by
  have hspell : (part ++ "|" ++ rest).toList = part.toList ++ '|' :: rest.toList := by
    simp
  rw [partsOf, hspell, splitOn_append _ _ _ h]
  rfl

theorem outcomeOf_bar (success : Bool) : '|' ∉ (outcomeOf success).toList := by
  cases success <;> decide

theorem classOf_bar (egress : String) : '|' ∉ (classOf egress).toList := by
  unfold classOf
  split <;> decide

section
variable (call : Bool × String)

theorem partsOf_connectKey : partsOf (connectKey call) =
    (outcomeOf call.1).toList :: (classOf call.2).toList :: partsOf (egressOf call.2) := by
  have hspell : connectKey call =
      outcomeOf call.1 ++ "|" ++ (classOf call.2 ++ "|" ++ egressOf call.2) := by
    simp only [connectKey, String.append_assoc]
  rw [hspell, partsOf_append (outcomeOf_bar call.1), partsOf_append (classOf_bar call.2)]

theorem partsOf_connectReserve : partsOf (connectReserve call) =
    (outcomeOf call.1).toList :: (classOf call.2).toList :: partsOf "other" := by
  have hspell : connectReserve call =
      outcomeOf call.1 ++ "|" ++ (classOf call.2 ++ "|" ++ "other") := by
    simp only [connectReserve, String.append_assoc]
    rfl
  rw [hspell, partsOf_append (outcomeOf_bar call.1), partsOf_append (classOf_bar call.2)]

end

/-- A key of the outcome. -/
def hasOutcome (outcome key : String) : Bool := (partsOf key)[0]? = some outcome.toList

/-- A key of the outcome and class. -/
def hasClass (outcome egressClass key : String) : Bool :=
  hasOutcome outcome key && (partsOf key)[1]? = some egressClass.toList

theorem hasOutcome_of_parts {key first : String} {rest : List (List Char)}
    (h : partsOf key = first.toList :: rest) (outcome : String) :
    hasOutcome outcome key = decide (first = outcome) := by
  rw [hasOutcome, h]
  simp [String.toList_inj]

theorem hasClass_of_parts {key first second : String} {rest : List (List Char)}
    (h : partsOf key = first.toList :: second.toList :: rest) (outcome egressClass : String) :
    hasClass outcome egressClass key = decide (first = outcome ∧ second = egressClass) := by
  rw [hasClass, hasOutcome_of_parts h, h]
  simp [String.toList_inj]

/-! ## Dial attempts -/

/-- The keys that names beyond the cap are counted under. -/
def connectReserves : List String :=
  ["success|direct|other", "success|marked|other", "failure|direct|other", "failure|marked|other"]

theorem connectReserve_mem (call : Bool × String) : connectReserve call ∈ connectReserves := by
  obtain ⟨success, egress⟩ := call
  have hmem : ∀ b, ∀ c ∈ ["direct", "marked"], outcomeOf b ++ "|" ++ c ++ "|other" ∈
      connectReserves := by
    decide
  apply hmem
  unfold classOf
  split <;> decide

theorem connect_amounts (r : Bool × String → Bool) (calls : List (Bool × String)) :
    amounts connectBooking r calls = calls.countP r := by
  induction calls with
  | nil => rfl
  | cons call calls ih =>
    rw [amounts_cons, ih, List.countP_cons, Nat.add_comm]
    rfl

end SakhtarWg.Proxy

namespace SakhtarWg.Dns
open Counters Proxy

/-! ## Resolutions -/

/-- Codes beyond the known ones count as transient failures. -/
def RCode.clamped : RCode → RCode
  | .unknown _ => .transient
  | .success => .success
  | .nxdomain => .nxdomain
  | .nodata => .nodata
  | .transient => .transient

/-- One call of `recordResolution`. -/
structure Resolution where
  rcode : RCode
  egress : String
  elapsed : ℤ

def resolutionKey (call : Resolution) : String :=
  call.rcode.clamped.string ++ "|" ++ egressOf call.egress

def resolutionReserve (call : Resolution) : String := call.rcode.clamped.string ++ "|other"

def resolutionBooking (call : Resolution) : Booking String (ℕ × ℕ) :=
  ⟨resolutionKey call, resolutionReserve call, (1, call.elapsed.toNat)⟩

theorem recordResolution_resolution (m : Metrics) (call : Resolution) :
    (m.recordResolution call.rcode call.egress call.elapsed).resolution =
      book (4 * Dns.maxEgressLabels) m.resolution (resolutionBooking call) := by
  obtain ⟨rcode, egress, elapsed⟩ := call
  cases rcode <;> rfl

/-- The metrics after a history of resolutions. -/
def Metrics.resolved (calls : List Resolution) : Metrics :=
  calls.foldl (fun m call => m.recordResolution call.rcode call.egress call.elapsed) Metrics.zero

theorem resolved_resolution (calls : List Resolution) : (Metrics.resolved calls).resolution =
    bookAll (4 * Dns.maxEgressLabels) resolutionBooking ∅ calls := by
  exact (List.foldl_hom Metrics.resolution fun m call =>
    (recordResolution_resolution m call).symm).symm

theorem clamped_bar (rcode : RCode) : '|' ∉ rcode.clamped.string.toList := by
  cases rcode <;> simp [RCode.clamped, RCode.string]

theorem partsOf_resolutionKey (call : Resolution) : partsOf (resolutionKey call) =
    call.rcode.clamped.string.toList :: partsOf (egressOf call.egress) :=
  partsOf_append (clamped_bar call.rcode) _

theorem partsOf_resolutionReserve (call : Resolution) : partsOf (resolutionReserve call) =
    call.rcode.clamped.string.toList :: partsOf "other" := by
  have hspell : resolutionReserve call = call.rcode.clamped.string ++ "|" ++ "other" := by
    simp only [resolutionReserve, String.append_assoc]
    rfl
  rw [hspell, partsOf_append (clamped_bar call.rcode)]

def resolutionReserves : List String :=
  ["positive|other", "nxdomain|other", "nodata|other", "transient|other"]

theorem resolutionReserve_mem (call : Resolution) :
    resolutionReserve call ∈ resolutionReserves := by
  obtain ⟨rcode, egress, elapsed⟩ := call
  unfold resolutionReserve
  cases rcode <;> simp [RCode.clamped, RCode.string, resolutionReserves]

/-- The number of resolutions and the time they took. -/
def Resolution.sum (calls : List Resolution) : ℕ × ℕ :=
  (calls.length, (calls.map (·.elapsed.toNat)).sum)

theorem resolution_amounts (r : Resolution → Bool) (calls : List Resolution) :
    amounts resolutionBooking r calls = Resolution.sum (calls.filter r) := by
  induction calls with
  | nil => rfl
  | cons call calls ih =>
    rw [amounts_cons, ih, List.filter_cons]
    cases r call with
    | false => simp
    | true => simp [resolutionBooking, Resolution.sum, Nat.add_comm]

end SakhtarWg.Dns

namespace SakhtarWg.Proxy
open Counters Dns

/-- The counters by egress are bounded in number and lose no call. For any history of dial
attempts, and of resolutions: there are at most `4 * maxEgressLabels + 4` keys; all counters
together, those of each outcome, and of each outcome and class, add up to the number of such
calls; and a key that exists counts each later call of its own, and nothing else unless it is a
reserve key. -/
theorem egress_counters_capped :
    (∀ calls : List (Bool × String),
      let m := (ConnectMetrics.recorded calls).snapshot
      m.keys.length ≤ 4 * Proxy.maxEgressLabels + 4 ∧
      sumOver (fun _ => true) m = calls.length ∧
      (∀ outcome, sumOver (hasOutcome outcome) m =
        calls.countP fun call => outcomeOf call.1 = outcome) ∧
      (∀ outcome egressClass, sumOver (hasClass outcome egressClass) m =
        calls.countP fun call => outcomeOf call.1 = outcome ∧ classOf call.2 = egressClass) ∧
      ∀ later, ∀ key ∈ m, key ∈ (ConnectMetrics.recorded (calls ++ later)).snapshot ∧
        ∃ extra, valueAt (ConnectMetrics.recorded (calls ++ later)).snapshot key =
            valueAt m key + later.countP (fun call => connectKey call = key) + extra ∧
          (key ∉ connectReserves → extra = 0)) ∧
    ∀ calls : List Resolution,
      let m := (Metrics.resolved calls).resolution
      m.keys.length ≤ 4 * Dns.maxEgressLabels + 4 ∧
      sumOver (fun _ => true) m = Resolution.sum calls ∧
      (∀ outcome, sumOver (hasOutcome outcome) m =
        Resolution.sum (calls.filter fun call => call.rcode.clamped.string = outcome)) ∧
      ∀ later, ∀ key ∈ m, key ∈ (Metrics.resolved (calls ++ later)).resolution ∧
        ∃ extra, valueAt (Metrics.resolved (calls ++ later)).resolution key =
            valueAt m key + Resolution.sum (later.filter fun call => resolutionKey call = key) +
              extra ∧
          (key ∉ resolutionReserves → extra = 0) := by
  refine ⟨fun calls => ?_, fun calls => ?_⟩
  · simp only [ConnectMetrics.snapshot, recorded_entries]
    refine ⟨length_keys_bookAll_le connectReserves connectReserve_mem calls, ?_, fun outcome => ?_,
      fun outcome egressClass => ?_, fun later key hkey => ?_⟩
    · rw [sumOver_bookAll (fun _ => rfl) fun _ => rfl, connect_amounts]
      simp
    · rw [sumOver_bookAll (fun call => hasOutcome_of_parts (partsOf_connectKey call) outcome)
        fun call => hasOutcome_of_parts (partsOf_connectReserve call) outcome, connect_amounts]
      simp
    · rw [sumOver_bookAll
        (fun call => hasClass_of_parts (partsOf_connectKey call) outcome egressClass)
        fun call => hasClass_of_parts (partsOf_connectReserve call) outcome egressClass,
        connect_amounts]
      simp
    · rw [bookAll_append]
      obtain ⟨extra, hextra, hzero⟩ :=
        valueAt_bookAll_of_mem (4 * Proxy.maxEgressLabels) connectBooking hkey later
      rw [connect_amounts] at hextra
      exact ⟨mem_bookAll hkey later, extra, hextra, fun h => hzero fun call heq =>
        h (heq ▸ connectReserve_mem call)⟩
  · simp only [resolved_resolution]
    refine ⟨length_keys_bookAll_le resolutionReserves resolutionReserve_mem calls, ?_,
      fun outcome => ?_, fun later key hkey => ?_⟩
    · rw [sumOver_bookAll (fun _ => rfl) fun _ => rfl, resolution_amounts]
      simp
    · rw [sumOver_bookAll (fun call => hasOutcome_of_parts (partsOf_resolutionKey call) outcome)
        fun call => hasOutcome_of_parts (partsOf_resolutionReserve call) outcome,
        resolution_amounts]
      simp
    · rw [bookAll_append]
      obtain ⟨extra, hextra, hzero⟩ :=
        valueAt_bookAll_of_mem (4 * Dns.maxEgressLabels) resolutionBooking hkey later
      rw [resolution_amounts] at hextra
      exact ⟨mem_bookAll hkey later, extra, hextra, fun h => hzero fun call heq =>
        h (heq ▸ resolutionReserve_mem call)⟩

end SakhtarWg.Proxy
