import SakhtarWg.Registry

/-!
# Series by egress

The keys that reach the registry may be anything. They are bounded when they come in and folded
against the reported tunnels when they go out, and no count is lost on the way.
-/

namespace SakhtarWg.Observability
open Counters Text

def connectName : String := "sakhtar_wg_proxy_backend_connect_attempts_total"

def resolutionName : String := "sakhtar_wg_dns_resolutions_total"

/-! ## What the exposition is made of -/

section
variable {V : Type} {m : AList fun _ : String => V} {P : Sample → Prop}

theorem mem_sortedKeys {key : String} : key ∈ sortedKeys m ↔ key ∈ m := mem_sortStrings

theorem forall_mem_map_sortedKeys {f : String → Sample} (h : ∀ key ∈ m, P (f key)) :
    ∀ s ∈ (sortedKeys m).map f, P s := by
  intro s hs
  obtain ⟨key, hkey, rfl⟩ := List.mem_map.mp hs
  exact h key (mem_sortedKeys.mp hkey)

theorem forall_mem_flatMap_sortedKeys {f : String → List Sample}
    (h : ∀ key ∈ m, ∀ s ∈ f key, P s) : ∀ s ∈ (sortedKeys m).flatMap f, P s := by
  intro s hs
  obtain ⟨key, hkey, hs⟩ := List.mem_flatMap.mp hs
  exact h key (mem_sortedKeys.mp hkey) s hs

end

namespace Registry
variable {r : Registry} {process : Process} {P : Sample → Prop}

theorem forall_processSamples (h : ∀ name ∈ ["sakhtar_wg_active_generation",
      "sakhtar_wg_process_uptime_seconds", "sakhtar_wg_process_goroutines",
      "sakhtar_wg_process_heap_bytes", "sakhtar_wg_process_open_fds"],
      ∀ value, P ⟨name, [], value⟩) : ∀ s ∈ r.processSamples process, P s := by
  simp only [List.mem_cons, List.not_mem_nil, or_false, forall_eq_or_imp, forall_eq] at h
  obtain ⟨h1, h2, h3, h4, h5⟩ := h
  unfold processSamples
  cases process.openFDs <;> simp [h1, h2, h3, h4, h5]

theorem forall_reloadSamples (h : ∀ outcome ∈ r.reload, ∀ name ∈
      ["sakhtar_wg_reload_attempts_total", "sakhtar_wg_reload_duration_seconds_sum"],
      ∀ value, P ⟨name, [("outcome", outcome)], value⟩) : ∀ s ∈ r.reloadSamples, P s := by
  refine forall_mem_flatMap_sortedKeys fun outcome houtcome => ?_
  simp [h outcome houtcome]

theorem forall_componentSamples (h : ∀ name ∈ r.components, ∀ value,
      P ⟨"sakhtar_wg_component_ready", [("component", name)], value⟩) :
    ∀ s ∈ r.componentSamples, P s :=
  forall_mem_map_sortedKeys fun name hname => h name hname _

theorem forall_gaugeSamples (h : ∀ name ∈ ["sakhtar_wg_kernel_drift", "sakhtar_wg_firewall_drift",
      "sakhtar_wg_proxy_sessions_active", "sakhtar_wg_proxy_sessions_accepted_total"],
      ∀ value, P ⟨name, [], value⟩) : ∀ s ∈ r.gaugeSamples, P s := by
  simp [gaugeSamples, h]

theorem forall_rejectedSamples (h : ∀ protocol reason listener value,
      P ⟨"sakhtar_wg_proxy_sessions_rejected_total",
        [("protocol", enum protocol ["tls", "http"]), ("reason", enum reason rejectionReasons),
          ("listener_class", enum listener ["loopback", "non_loopback"])], value⟩) :
    ∀ s ∈ r.rejectedSamples, P s :=
  forall_mem_map_sortedKeys fun _ _ => h _ _ _ _

theorem forall_sessionSamples (h : ∀ outcome ∈ ["completed", "canceled", "error", "other"],
      ∀ name ∈ ["sakhtar_wg_proxy_sessions_completed_total",
        "sakhtar_wg_proxy_session_duration_seconds_sum", "sakhtar_wg_proxy_client_bytes_total",
        "sakhtar_wg_proxy_backend_bytes_total"],
      ∀ value, P ⟨name, [("outcome", outcome)], value⟩) : ∀ s ∈ r.sessionSamples, P s := by
  intro s hs
  obtain ⟨outcome, houtcome, hs⟩ := List.mem_flatMap.mp hs
  have hnames := h outcome houtcome
  cases htotal : r.proxy.completed.lookup outcome with
  | none => simp [htotal] at hs
  | some total =>
    simp only [htotal, List.mem_cons, List.not_mem_nil, or_false] at hs
    obtain rfl | rfl | rfl | rfl := hs
    all_goals exact hnames _ (by simp) _

theorem forall_connectSamples (h : ∀ key ∈ r.connectSeries, ∀ value,
      P ⟨"sakhtar_wg_proxy_backend_connect_attempts_total",
        [("outcome", (fixedParts key 3).getD 0 ""), ("egress_class", (fixedParts key 3).getD 1 ""),
          ("egress", (fixedParts key 3).getD 2 "")], value⟩) :
    ∀ s ∈ r.connectSamples, P s :=
  forall_mem_map_sortedKeys fun key hkey => h key hkey _

theorem forall_cacheSamples (h : ∀ name ∈ ["sakhtar_wg_dns_cache_entries",
      "sakhtar_wg_dns_cache_evictions_total", "sakhtar_wg_dns_pending",
      "sakhtar_wg_dns_pending_rejected_total"],
      ∀ labels ∈ [[], [("class", "positive")], [("class", "negative")]],
      ∀ value, P ⟨name, labels, value⟩) : ∀ s ∈ r.cacheSamples, P s := by
  simp [cacheSamples, h]

theorem forall_requestSamples (h : ∀ result value,
      P ⟨"sakhtar_wg_dns_requests_total", [("result", enum result requestKinds)], value⟩) :
    ∀ s ∈ r.requestSamples, P s :=
  forall_mem_map_sortedKeys fun _ _ => h _ _

theorem forall_resolutionSamples (h : ∀ key ∈ r.resolutionSeries,
      ∀ name ∈ ["sakhtar_wg_dns_resolutions_total",
        "sakhtar_wg_dns_resolution_duration_seconds_sum"], ∀ value,
      P ⟨name, [("outcome", enum ((fixedParts key 2).getD 0 "") resolutionKinds),
        ("egress_class", if (fixedParts key 2).getD 1 "" = "direct" then "direct" else "marked"),
        ("egress", (fixedParts key 2).getD 1 "")], value⟩) :
    ∀ s ∈ r.resolutionSamples, P s := by
  refine forall_mem_flatMap_sortedKeys fun key hkey => ?_
  have hnames := h key hkey
  simp only [List.mem_cons, List.not_mem_nil, or_false, forall_eq_or_imp, forall_eq] at hnames ⊢
  exact ⟨hnames.1 _, hnames.2 _⟩

theorem forall_wgSamples (h : ∀ name ∈ r.wg, (∀ metric ∈ ["sakhtar_wg_wg_handshake_age_seconds",
        "sakhtar_wg_wg_receive_bytes", "sakhtar_wg_wg_transmit_bytes"], ∀ value,
        P ⟨metric, [("tunnel", name)], value⟩) ∧
      ∀ signal value, P ⟨"sakhtar_wg_wg_session_recent",
        [("tunnel", name), ("state", enum signal signals)], value⟩) :
    ∀ s ∈ r.wgSamples, P s := by
  refine forall_mem_flatMap_sortedKeys fun name hname => ?_
  obtain ⟨hmetrics, hsession⟩ := h name hname
  cases r.wg.lookup name <;> simp [hmetrics, hsession]

theorem forall_groupSamples (h : ∀ name snapshot, r.groups.lookup name = some snapshot →
      ∀ value, P ⟨"sakhtar_wg_group_policy_state", [("group", name), ("state", snapshot.state),
        ("reason", snapshot.reason)], value⟩) :
    ∀ s ∈ r.groupSamples, P s := by
  refine forall_mem_flatMap_sortedKeys fun name hname => ?_
  cases hlookup : r.groups.lookup name with
  | none => simp
  | some snapshot => simp [h name snapshot hlookup]

theorem forall_probeSamples (h : ∀ name ∈ r.probes, ∀ metric ∈ ["sakhtar_wg_active_probe_success",
      "sakhtar_wg_active_probe_duration_seconds", "sakhtar_wg_active_probe_timestamp_seconds"],
      ∀ value, P ⟨metric, [("tunnel", name)], value⟩) : ∀ s ∈ r.probeSamples, P s := by
  refine forall_mem_flatMap_sortedKeys fun name hname => ?_
  have hmetrics := h name hname
  cases r.probes.lookup name with
  | none => simp
  | some snapshot => cases hat : snapshot.observedAt <;> simp [hat, hmetrics]

theorem forall_routeSamples (h : ∀ name ∈ r.routes, ∀ metric ∈ ["sakhtar_wg_route_source_prefixes",
      "sakhtar_wg_route_source_last_success_timestamp_seconds",
      "sakhtar_wg_route_source_last_success_age_seconds"],
      ∀ value, P ⟨metric, [("source", name)], value⟩) : ∀ s ∈ r.routeSamples process, P s := by
  refine forall_mem_flatMap_sortedKeys fun name hname => ?_
  have hmetrics := h name hname
  cases r.routes.lookup name with
  | none => simp
  | some snapshot => cases hat : snapshot.lastSuccess <;> simp [hat, hmetrics]

theorem forall_pfSyncSamples (h : ∀ outcome ∈ r.pfSync, ∀ value,
      P ⟨"sakhtar_wg_pfsync_reconcile_total", [("outcome", outcome)], value⟩) :
    ∀ s ∈ r.pfSyncSamples, P s :=
  forall_mem_map_sortedKeys fun outcome houtcome => h outcome houtcome _

theorem forall_kernelRepairSamples (h : ∀ outcome ∈ r.kernelRepair, ∀ value,
      P ⟨"sakhtar_wg_kernel_repair_total", [("outcome", outcome)], value⟩) :
    ∀ s ∈ r.kernelRepairSamples, P s :=
  forall_mem_map_sortedKeys fun outcome houtcome => h outcome houtcome _

/-! ### The samples of one name -/

theorem filter_eq_nil_of_names {block : List Sample} {metric : String}
    (h : ∀ s ∈ block, s.name ≠ metric) : block.filter (fun s => s.name = metric) = [] :=
  List.filter_eq_nil_iff.mpr fun s hs => by simpa using h s hs

/-- The samples of the two series by egress, and of no other block. -/
theorem filter_samples {metric : String} (h : metric ∈ [connectName, resolutionName]) :
    (r.samples process).filter (fun s => s.name = metric) =
      (r.connectSamples ++ r.resolutionSamples).filter fun s => s.name = metric := by
  have hne : ∀ names : List String, (∀ n ∈ names, n ∉ [connectName, resolutionName]) →
      ∀ n ∈ names, n ≠ metric := by
    rintro names hnames n hn rfl
    exact hnames n hn h
  have hone : ∀ n : String, n ∉ [connectName, resolutionName] → n ≠ metric := by
    rintro n hn rfl
    exact hn h
  have h1 : ∀ s ∈ r.processSamples process, s.name ≠ metric :=
    forall_processSamples fun n hn _ => hne _ (by decide) n hn
  have h2 : ∀ s ∈ r.reloadSamples, s.name ≠ metric :=
    forall_reloadSamples fun _ _ n hn _ => hne _ (by decide) n hn
  have h3 : ∀ s ∈ r.componentSamples, s.name ≠ metric :=
    forall_componentSamples fun _ _ _ => hone "sakhtar_wg_component_ready" (by decide)
  have h4 : ∀ s ∈ r.gaugeSamples, s.name ≠ metric :=
    forall_gaugeSamples fun n hn _ => hne _ (by decide) n hn
  have h5 : ∀ s ∈ r.rejectedSamples, s.name ≠ metric :=
    forall_rejectedSamples fun _ _ _ _ => hone "sakhtar_wg_proxy_sessions_rejected_total" (by decide)
  have h6 : ∀ s ∈ r.sessionSamples, s.name ≠ metric :=
    forall_sessionSamples fun _ _ n hn _ => hne _ (by decide) n hn
  have h7 : ∀ s ∈ r.cacheSamples, s.name ≠ metric :=
    forall_cacheSamples fun n hn _ _ _ => hne _ (by decide) n hn
  have h8 : ∀ s ∈ r.requestSamples, s.name ≠ metric :=
    forall_requestSamples fun _ _ => hone "sakhtar_wg_dns_requests_total" (by decide)
  have h9 : ∀ s ∈ r.wgSamples, s.name ≠ metric :=
    forall_wgSamples fun _ _ => ⟨fun n hn _ => hne _ (by decide) n hn,
      fun _ _ => hone "sakhtar_wg_wg_session_recent" (by decide)⟩
  have h10 : ∀ s ∈ r.groupSamples, s.name ≠ metric :=
    forall_groupSamples fun _ _ _ _ => hone "sakhtar_wg_group_policy_state" (by decide)
  have h11 : ∀ s ∈ r.probeSamples, s.name ≠ metric :=
    forall_probeSamples fun _ _ n hn _ => hne _ (by decide) n hn
  have h12 : ∀ s ∈ r.routeSamples process, s.name ≠ metric :=
    forall_routeSamples fun _ _ n hn _ => hne _ (by decide) n hn
  have h13 : ∀ s ∈ r.pfSyncSamples, s.name ≠ metric :=
    forall_pfSyncSamples fun _ _ _ => hone "sakhtar_wg_pfsync_reconcile_total" (by decide)
  have h14 : ∀ s ∈ r.kernelRepairSamples, s.name ≠ metric :=
    forall_kernelRepairSamples fun _ _ _ => hone "sakhtar_wg_kernel_repair_total" (by decide)
  simp only [samples, List.filter_append, filter_eq_nil_of_names h1, filter_eq_nil_of_names h2,
    filter_eq_nil_of_names h3, filter_eq_nil_of_names h4, filter_eq_nil_of_names h5,
    filter_eq_nil_of_names h6, filter_eq_nil_of_names h7, filter_eq_nil_of_names h8,
    filter_eq_nil_of_names h9, filter_eq_nil_of_names h10, filter_eq_nil_of_names h11,
    filter_eq_nil_of_names h12, filter_eq_nil_of_names h13, filter_eq_nil_of_names h14,
    List.nil_append, List.append_nil]

theorem filter_connect : (r.samples process).filter (fun s => s.name = connectName) =
    r.connectSamples := by
  have hresolution : ∀ s ∈ r.resolutionSamples, s.name ≠ connectName :=
    forall_resolutionSamples fun _ _ n hn _ => by
      have hall : ∀ n ∈ ["sakhtar_wg_dns_resolutions_total",
          "sakhtar_wg_dns_resolution_duration_seconds_sum"], n ≠ connectName := by
        decide
      exact hall n hn
  have hconnect : ∀ s ∈ r.connectSamples, s.name = connectName :=
    forall_connectSamples fun _ _ _ => rfl
  rw [filter_samples (by decide), List.filter_append, filter_eq_nil_of_names hresolution,
    List.append_nil]
  exact List.filter_eq_self.mpr fun s hs => by simpa using hconnect s hs

/-- The line of the resolution counter of a series. -/
def resolutionSample (r : Registry) (key : String) : Sample :=
  let parts := fixedParts key 2
  ⟨resolutionName, [("outcome", enum (parts.getD 0 "") resolutionKinds),
    ("egress_class", if parts.getD 1 "" = "direct" then "direct" else "marked"),
    ("egress", parts.getD 1 "")], (valueAt r.resolutionSeries key).1⟩

theorem filter_resolution : (r.samples process).filter (fun s => s.name = resolutionName) =
    (sortedKeys r.resolutionSeries).map r.resolutionSample := by
  have hconnect : ∀ s ∈ r.connectSamples, s.name ≠ resolutionName :=
    forall_connectSamples fun _ _ _ => by
      change connectName ≠ resolutionName
      decide
  rw [filter_samples (by decide), List.filter_append, filter_eq_nil_of_names hconnect,
    List.nil_append, resolutionSamples, List.filter_flatMap, List.map_eq_flatMap]
  -- of the two samples for each key the names decide
  rfl

end Registry

/-! ## Keys -/

theorem fixedParts_two {a b : String} (ha : '|' ∉ a.toList) (hb : '|' ∉ b.toList) :
    fixedParts (a ++ "|" ++ b) 2 = [a, b] := by
  have hspell : (a ++ "|" ++ b).toList = a.toList ++ '|' :: b.toList := by simp
  rw [fixedParts, hspell, splitOn_append _ _ _ ha, splitOn_of_not_mem _ _ hb]
  simp

theorem fixedParts_three {a b c : String} (ha : '|' ∉ a.toList) (hb : '|' ∉ b.toList)
    (hc : '|' ∉ c.toList) : fixedParts (a ++ "|" ++ b ++ "|" ++ c) 3 = [a, b, c] := by
  have hspell : (a ++ "|" ++ b ++ "|" ++ c).toList =
      a.toList ++ '|' :: (b.toList ++ '|' :: c.toList) := by simp
  rw [fixedParts, hspell, splitOn_append _ _ _ ha, splitOn_append _ _ _ hb,
    splitOn_of_not_mem _ _ hc]
  simp

/-- The text before the first bar. -/
def firstPart (key : String) : String := (fixedParts key 1).getD 0 ""

theorem fixedParts_first (key : String) (n : ℕ) :
    (fixedParts key (n + 1)).getD 0 "" = firstPart key := by
  obtain ⟨w, ws, hws⟩ := List.exists_cons_of_ne_nil (splitOn_ne_nil '|' key.toList)
  simp [firstPart, fixedParts, hws]

theorem enum_mem (value : String) (allowed : List String) :
    enum value allowed ∈ allowed ++ ["other"] := by
  unfold enum
  split
  · exact List.mem_append_left _ ‹_›
  · simp

theorem enum_idem (value : String) (allowed : List String) :
    enum (enum value allowed) allowed = enum value allowed := by
  unfold enum
  split_ifs <;> rfl

/-- A listed name is the image of itself only. -/
theorem enum_eq_iff {value item : String} {allowed : List String} (h : item ∈ allowed)
    (hother : "other" ∉ allowed) : enum value allowed = item ↔ value = item := by
  unfold enum
  split
  · rfl
  · rename_i hvalue
    constructor
    · rintro rfl
      exact absurd h hother
    · rintro rfl
      exact absurd h hvalue

theorem enum_bar {allowed : List String} (h : ∀ item ∈ allowed ++ ["other"], '|' ∉ item.toList)
    (value : String) : '|' ∉ (enum value allowed).toList := h _ (enum_mem value allowed)

theorem egressIdentity_bar (value : String) : '|' ∉ (egressIdentity value).toList := by
  unfold egressIdentity
  split_ifs with hempty hlong hchars
  · decide
  · decide
  · intro hmem
    exact absurd (List.all_eq_true.mp hchars '|' hmem) (by decide)
  · decide

theorem egressIdentity_cases (value : String) : egressIdentity value = "direct" ∨
    egressIdentity value = "other" ∨ egressIdentity value = value := by
  unfold egressIdentity
  split_ifs
  · exact .inl rfl
  · exact .inr (.inl rfl)
  · exact .inr (.inr rfl)
  · exact .inr (.inl rfl)

theorem egressIdentity_idem (value : String) :
    egressIdentity (egressIdentity value) = egressIdentity value := by
  obtain h | h | h := egressIdentity_cases value
  · rw [h]
    decide
  · rw [h]
    decide
  · rw [h, h]

theorem Registry.knownEgress_bar {r : Registry} {value : String} (h : '|' ∉ value.toList) :
    '|' ∉ (r.knownEgress value).toList := by
  unfold Registry.knownEgress
  split_ifs
  · exact h
  · exact h
  · decide

theorem Registry.knownEgress_mem (r : Registry) (value : String) :
    r.knownEgress value ∈ r.wg ∨ r.knownEgress value = "direct" ∨
      r.knownEgress value = "other" := by
  unfold Registry.knownEgress
  split_ifs with hdirect hknown
  · exact .inr (.inl hdirect)
  · exact .inl hknown
  · exact .inr (.inr rfl)

/-! ## Regrouping -/

section
variable {M : Type} [AddCommMonoid M]

theorem sumOver_regroup (q : String → Bool) (f : String → String)
    (m : AList fun _ : String => M) :
    sumOver q (regroup f m) = sumOver (fun key => q (f key)) m := by
  rw [regroup, sumOver_gather, sumOver_empty, zero_add]
  rfl

theorem mem_regroup {f : String → String} {m : AList fun _ : String => M} {key : String} :
    key ∈ regroup f m ↔ ∃ old ∈ m, f old = key := by
  rw [regroup, mem_gather]
  constructor
  · rintro (h | ⟨e, he, rfl⟩)
    · exact absurd h (AList.notMem_empty key)
    · exact ⟨e.1, List.mem_keys_of_mem he, rfl⟩
  · rintro ⟨old, hold, rfl⟩
    obtain ⟨b, hb⟩ := List.exists_of_mem_keys hold
    exact .inr ⟨⟨old, b⟩, hb, rfl⟩

/-- The values of a block with one sample for each key, summed over a property of samples. -/
theorem sum_series (m : AList fun _ : String => M) (φ : M →+ ℤ) {sample : String → Sample}
    (hvalue : ∀ key, (sample key).value = φ (valueAt m key)) (q : Sample → Bool) :
    ((((sortedKeys m).map sample).filter q).map Sample.value).sum =
      φ (sumOver (fun key => q (sample key)) m) := by
  have hperm : (((sortedKeys m).filter fun key => q (sample key)).map (valueAt m)).Perm
      ((m.keys.filter fun key => q (sample key)).map (valueAt m)) :=
    ((sortStrings_perm m.keys).filter _).map _
  rw [List.filter_map, List.map_map, ← sum_valueAt_keys, ← hperm.sum_eq, map_list_sum,
    List.map_map]
  congr 1
  apply List.map_congr_left
  intro key _
  exact hvalue key

end

/-! ## From the snapshot to the series -/

namespace Registry
variable (r : Registry) (key : String)

/-- The labels of the attempts counted under a key of the snapshot. -/
def connectLabels : List String :=
  [enum ((fixedParts key 3).getD 0 "") ["success", "failure"],
    enum ((fixedParts key 3).getD 1 "") ["direct", "marked"],
    r.knownEgress (egressIdentity ((fixedParts key 3).getD 2 ""))]

/-- The outcome and egress of the resolutions counted under a key of the snapshot. -/
def resolutionLabels : List String :=
  [enum ((fixedParts key 2).getD 0 "") resolutionKinds,
    r.knownEgress (egressIdentity ((fixedParts key 2).getD 1 ""))]

theorem fixedParts_boundedConnect : fixedParts (boundedConnect key) 3 =
    [enum ((fixedParts key 3).getD 0 "") ["success", "failure"],
      enum ((fixedParts key 3).getD 1 "") ["direct", "marked"],
      egressIdentity ((fixedParts key 3).getD 2 "")] :=
  fixedParts_three (enum_bar (by decide) _) (enum_bar (by decide) _) (egressIdentity_bar _)

theorem fixedParts_boundedResolution : fixedParts (boundedResolution key) 2 =
    [enum ((fixedParts key 2).getD 0 "") resolutionKinds,
      egressIdentity ((fixedParts key 2).getD 1 "")] :=
  fixedParts_two (enum_bar (by decide) _) (egressIdentity_bar _)

/-- The name under which the exposition collects a key of the registry. -/
def connectFold : String :=
  let parts := fixedParts key 3
  parts.getD 0 "" ++ "|" ++ parts.getD 1 "" ++ "|" ++ r.knownEgress (parts.getD 2 "")

def resolutionFold : String :=
  let parts := fixedParts key 2
  parts.getD 0 "" ++ "|" ++ r.knownEgress (egressIdentity (parts.getD 1 ""))

theorem fixedParts_connectFold : fixedParts (r.connectFold (boundedConnect key)) 3 =
    r.connectLabels key := by
  unfold connectFold connectLabels
  rw [fixedParts_boundedConnect]
  simp only [List.getD_cons_zero, List.getD_cons_succ]
  exact fixedParts_three (enum_bar (by decide) _) (enum_bar (by decide) _)
    (knownEgress_bar (egressIdentity_bar _))

theorem fixedParts_resolutionFold : fixedParts (r.resolutionFold (boundedResolution key)) 2 =
    r.resolutionLabels key := by
  unfold resolutionFold
  rw [fixedParts_boundedResolution]
  simp only [List.getD_cons_zero, List.getD_cons_succ, egressIdentity_idem]
  exact fixedParts_two (enum_bar (by decide) _) (knownEgress_bar (egressIdentity_bar _))

theorem connectFold_boundedConnect : r.connectFold (boundedConnect key) =
    (r.connectLabels key).getD 0 "" ++ "|" ++ (r.connectLabels key).getD 1 "" ++ "|" ++
      (r.connectLabels key).getD 2 "" := by
  unfold connectFold connectLabels
  rw [fixedParts_boundedConnect]
  simp only [List.getD_cons_zero, List.getD_cons_succ]

theorem resolutionFold_boundedResolution : r.resolutionFold (boundedResolution key) =
    (r.resolutionLabels key).getD 0 "" ++ "|" ++ (r.resolutionLabels key).getD 1 "" := by
  unfold resolutionFold resolutionLabels
  rw [fixedParts_boundedResolution]
  simp only [List.getD_cons_zero, List.getD_cons_succ, egressIdentity_idem]

end Registry

section
variable {r : Registry} {m : AList fun _ : String => ℕ}

/-- The sample of a series of attempts. -/
def Registry.connectSample (r : Registry) (key : String) : Sample :=
  let parts := fixedParts key 3
  ⟨connectName, [("outcome", parts.getD 0 ""), ("egress_class", parts.getD 1 ""),
    ("egress", parts.getD 2 "")], (valueAt r.connectSeries key : ℕ)⟩

theorem connectSeries_eq : r.connectSeries = regroup r.connectFold r.proxy.connectAttempts := rfl

theorem connectSeries_key (h : r.proxy.connectAttempts = regroup boundedConnect m) {key : String}
    (hkey : key ∈ r.connectSeries) : ∃ old ∈ m, fixedParts key 3 = r.connectLabels old ∧
      key = (fixedParts key 3).getD 0 "" ++ "|" ++ (fixedParts key 3).getD 1 "" ++ "|" ++
        (fixedParts key 3).getD 2 "" := by
  rw [connectSeries_eq, h] at hkey
  obtain ⟨bounded, hbounded, hfold⟩ := mem_regroup.mp hkey
  obtain ⟨old, hold, rfl⟩ := mem_regroup.mp hbounded
  have hparts := r.fixedParts_connectFold old
  rw [hfold] at hparts
  refine ⟨old, hold, hparts, ?_⟩
  rw [hparts, ← hfold]
  exact r.connectFold_boundedConnect old

theorem sumOver_connectSeries (h : r.proxy.connectAttempts = regroup boundedConnect m)
    (q : String → Bool) : sumOver q r.connectSeries =
      sumOver (fun old => q (r.connectFold (boundedConnect old))) m := by
  rw [connectSeries_eq, h, sumOver_regroup, sumOver_regroup]

/-- The series of a metric against the counts of a snapshot: each combination of labels once,
nothing lost altogether and for each listed outcome. -/
structure Accounts (series : List Sample) (outcomes : List String)
    (count : (String → Bool) → ℕ) : Prop where
  once : (series.map Sample.labels).Nodup
  total : (series.map Sample.value).sum = count fun _ => true
  outcome : ∀ outcome ∈ outcomes,
    ((series.filter fun s => ("outcome", outcome) ∈ s.labels).map Sample.value).sum =
      count fun key => firstPart key = outcome

theorem connect_accounts (h : r.proxy.connectAttempts = regroup boundedConnect m) :
    Accounts r.connectSamples ["success", "failure"] fun q => sumOver q m := by
  have hsum : ∀ q : Sample → Bool, ((r.connectSamples.filter q).map Sample.value).sum =
      (sumOver (fun old => q (r.connectSample (r.connectFold (boundedConnect old)))) m : ℕ) := by
    intro q
    have hvalue : ∀ key, (r.connectSample key).value =
        Nat.castAddMonoidHom ℤ (valueAt r.connectSeries key) := fun _ => rfl
    exact (sum_series r.connectSeries _ hvalue q).trans
      (congrArg Nat.cast (sumOver_connectSeries h _))
  refine ⟨?_, ?_, fun outcome houtcome => ?_⟩
  · -- the labels of a series spell its key
    have hmap : r.connectSamples.map Sample.labels =
        (sortedKeys r.connectSeries).map fun key => (r.connectSample key).labels :=
      List.map_map
    rw [hmap]
    refine List.Nodup.map_on (fun key hkey key' hkey' heq => ?_)
      ((sortStrings_perm _).nodup_iff.mpr (AList.keys_nodup _))
    obtain ⟨-, -, -, hspell⟩ := connectSeries_key h (mem_sortedKeys.mp hkey)
    obtain ⟨-, -, -, hspell'⟩ := connectSeries_key h (mem_sortedKeys.mp hkey')
    simp only [Registry.connectSample, List.cons.injEq, Prod.mk.injEq, true_and, and_true] at heq
    rw [hspell, hspell', heq.1, heq.2.1, heq.2.2]
  · simpa using hsum fun _ => true
  · have hlabel : ∀ old, ("outcome", outcome) ∈
        (r.connectSample (r.connectFold (boundedConnect old))).labels ↔
          firstPart old = outcome := by
      intro old
      have hlisted : enum (firstPart old) ["success", "failure"] = outcome ↔
          firstPart old = outcome := enum_eq_iff houtcome (by decide)
      rw [← hlisted]
      simp only [Registry.connectSample, r.fixedParts_connectFold old, Registry.connectLabels,
        fixedParts_first, List.getD_cons_zero, List.getD_cons_succ, List.mem_cons, Prod.mk.injEq,
        List.not_mem_nil]
      simp [eq_comm]
    rw [hsum]
    simp only [hlabel]

end

section
variable {r : Registry} {m : AList fun _ : String => ℕ × ℤ}

theorem resolutionSeries_eq : r.resolutionSeries =
    regroup r.resolutionFold r.dns.resolutions := rfl

theorem resolutionSeries_key (h : r.dns.resolutions = regroup boundedResolution m) {key : String}
    (hkey : key ∈ r.resolutionSeries) : ∃ old ∈ m, fixedParts key 2 = r.resolutionLabels old ∧
      key = (fixedParts key 2).getD 0 "" ++ "|" ++ (fixedParts key 2).getD 1 "" := by
  rw [resolutionSeries_eq, h] at hkey
  obtain ⟨bounded, hbounded, hfold⟩ := mem_regroup.mp hkey
  obtain ⟨old, hold, rfl⟩ := mem_regroup.mp hbounded
  have hparts := r.fixedParts_resolutionFold old
  rw [hfold] at hparts
  refine ⟨old, hold, hparts, ?_⟩
  rw [hparts, ← hfold]
  exact r.resolutionFold_boundedResolution old

theorem sumOver_resolutionSeries (h : r.dns.resolutions = regroup boundedResolution m)
    (q : String → Bool) : sumOver q r.resolutionSeries =
      sumOver (fun old => q (r.resolutionFold (boundedResolution old))) m := by
  rw [resolutionSeries_eq, h, sumOver_regroup, sumOver_regroup]

theorem resolution_accounts (h : r.dns.resolutions = regroup boundedResolution m) :
    Accounts ((sortedKeys r.resolutionSeries).map r.resolutionSample) resolutionKinds
      fun q => (sumOver q m).1 := by
  have hsum : ∀ q : Sample → Bool,
      ((((sortedKeys r.resolutionSeries).map r.resolutionSample).filter q).map Sample.value).sum =
        ((sumOver (fun old => q (r.resolutionSample (r.resolutionFold (boundedResolution old))))
          m).1 : ℕ) := by
    intro q
    have hvalue : ∀ key, (r.resolutionSample key).value =
        ((Nat.castAddMonoidHom ℤ).comp (AddMonoidHom.fst ℕ ℤ))
          (valueAt r.resolutionSeries key) := fun _ => rfl
    exact (sum_series r.resolutionSeries _ hvalue q).trans
      (congrArg (fun x : ℕ × ℤ => (x.1 : ℤ)) (sumOver_resolutionSeries h _))
  -- the counted label is the outcome, bounded once more
  have houtcomes : ∀ key ∈ r.resolutionSeries,
      enum ((fixedParts key 2).getD 0 "") resolutionKinds = (fixedParts key 2).getD 0 "" := by
    intro key hkey
    obtain ⟨old, -, hparts, -⟩ := resolutionSeries_key h hkey
    rw [hparts, Registry.resolutionLabels, List.getD_cons_zero]
    exact enum_idem _ _
  refine ⟨?_, ?_, fun outcome houtcome => ?_⟩
  · rw [List.map_map]
    refine List.Nodup.map_on (fun key hkey key' hkey' heq => ?_)
      ((sortStrings_perm _).nodup_iff.mpr (AList.keys_nodup _))
    have hmem := mem_sortedKeys.mp hkey
    have hmem' := mem_sortedKeys.mp hkey'
    obtain ⟨-, -, -, hspell⟩ := resolutionSeries_key h hmem
    obtain ⟨-, -, -, hspell'⟩ := resolutionSeries_key h hmem'
    simp only [Function.comp_apply, Registry.resolutionSample, houtcomes key hmem,
      houtcomes key' hmem', List.cons.injEq, Prod.mk.injEq, true_and, and_true] at heq
    rw [hspell, hspell', heq.1, heq.2.2]
  · simpa using hsum fun _ => true
  · have hlabel : ∀ old, ("outcome", outcome) ∈
        (r.resolutionSample (r.resolutionFold (boundedResolution old))).labels ↔
          firstPart old = outcome := by
      intro old
      have hlisted : enum (firstPart old) resolutionKinds = outcome ↔
          firstPart old = outcome := enum_eq_iff houtcome (by decide)
      rw [← hlisted]
      simp only [Registry.resolutionSample, r.fixedParts_resolutionFold old,
        Registry.resolutionLabels, fixedParts_first, List.getD_cons_zero, List.getD_cons_succ,
        List.mem_cons, Prod.mk.injEq, List.not_mem_nil, enum_idem]
      simp [eq_comm]
    rw [hsum]
    simp only [hlabel]

end

/-! ## The exported series -/

theorem mem_setWG (r : Registry) (snapshots : List WGSnapshot) (name : String) :
    name ∈ (r.setWG snapshots).wg ↔ name ∈ snapshots.map WGSnapshot.tunnel := by
  have hfold : ∀ m : AList fun _ : String => WGSnapshot,
      name ∈ snapshots.foldl (fun m snapshot => m.insert snapshot.tunnel snapshot) m ↔
        name ∈ m ∨ name ∈ snapshots.map WGSnapshot.tunnel := by
    induction snapshots with
    | nil => simp
    | cons snapshot snapshots ih =>
      intro m
      rw [List.foldl_cons, ih, AList.mem_insert, List.map_cons, List.mem_cons]
      tauto
  exact (hfold ∅).trans (by simp)

theorem connect_range {r : Registry} {m : AList fun _ : String => ℕ} {egresses : List String}
    (h : r.proxy.connectAttempts = regroup boundedConnect m)
    (hegress : ∀ value, r.knownEgress value ∈ egresses) :
    ∀ s ∈ r.connectSamples, ∃ outcome ∈ ["success", "failure", "other"],
      ∃ egressClass ∈ ["direct", "marked", "other"], ∃ egress ∈ egresses, s.labels =
        [("outcome", outcome), ("egress_class", egressClass), ("egress", egress)] := by
  refine Registry.forall_connectSamples fun key hkey value => ?_
  obtain ⟨old, -, hparts, -⟩ := connectSeries_key h hkey
  simp only [hparts, Registry.connectLabels, List.getD_cons_zero, List.getD_cons_succ]
  exact ⟨_, enum_mem _ _, _, enum_mem _ _, _, hegress _, rfl⟩

theorem resolution_range {r : Registry} {m : AList fun _ : String => ℕ × ℤ}
    {egresses : List String} (h : r.dns.resolutions = regroup boundedResolution m)
    (hegress : ∀ value, r.knownEgress value ∈ egresses) :
    ∀ s ∈ (sortedKeys r.resolutionSeries).map r.resolutionSample,
      ∃ outcome ∈ ["positive", "nxdomain", "nodata", "transient", "other"],
      ∃ egress ∈ egresses, s.labels = [("outcome", outcome),
        ("egress_class", if egress = "direct" then "direct" else "marked"),
        ("egress", egress)] := by
  refine forall_mem_map_sortedKeys fun key hkey => ?_
  obtain ⟨old, -, hparts, -⟩ := resolutionSeries_key h hkey
  simp only [Registry.resolutionSample, hparts, Registry.resolutionLabels, List.getD_cons_zero,
    List.getD_cons_succ, enum_idem]
  exact ⟨_, enum_mem _ _, _, hegress _, rfl⟩

/-- Exported egress series are bounded and conserve counts: for any registry, snapshots with any
keys and any reported tunnels. -/
theorem egress_series_conserve (r : Registry) (proxy : ProxySnapshot) (dns : DNSSnapshot)
    (tunnels : List WGSnapshot) (process : Process) :
    let out := (((r.setProxy proxy).setDNS dns).setWG tunnels).samples process
    let egresses := "direct" :: "other" :: tunnels.map WGSnapshot.tunnel
    let connect := out.filter fun s => s.name = connectName
    let resolutions := out.filter fun s => s.name = resolutionName
    (∀ s ∈ connect, ∃ outcome ∈ ["success", "failure", "other"],
      ∃ egressClass ∈ ["direct", "marked", "other"], ∃ egress ∈ egresses, s.labels =
        [("outcome", outcome), ("egress_class", egressClass), ("egress", egress)]) ∧
    Accounts connect ["success", "failure"] (fun q => sumOver q proxy.connectAttempts) ∧
    (∀ s ∈ resolutions, ∃ outcome ∈ ["positive", "nxdomain", "nodata", "transient", "other"],
      ∃ egress ∈ egresses, s.labels = [("outcome", outcome),
        ("egress_class", if egress = "direct" then "direct" else "marked"),
        ("egress", egress)]) ∧
    Accounts resolutions ["positive", "nxdomain", "nodata", "transient"]
      (fun q => (sumOver q dns.resolutions).1) := by
  have hconnect : (((r.setProxy proxy).setDNS dns).setWG tunnels).proxy.connectAttempts =
      regroup boundedConnect proxy.connectAttempts := rfl
  have hdns : (((r.setProxy proxy).setDNS dns).setWG tunnels).dns.resolutions =
      regroup boundedResolution dns.resolutions := rfl
  have hwg := mem_setWG ((r.setProxy proxy).setDNS dns) tunnels
  generalize ((r.setProxy proxy).setDNS dns).setWG tunnels = reported at hconnect hdns hwg
  have hegress : ∀ value, reported.knownEgress value ∈
      "direct" :: "other" :: tunnels.map WGSnapshot.tunnel := by
    intro value
    obtain h | h | h := reported.knownEgress_mem value
    · exact List.mem_cons_of_mem _ (List.mem_cons_of_mem _ ((hwg _).mp h))
    · simp [h]
    · simp [h]
  dsimp only
  rw [Registry.filter_connect, Registry.filter_resolution]
  exact ⟨connect_range hconnect hegress, connect_accounts hconnect,
    resolution_range hdns hegress, resolution_accounts hdns⟩

end SakhtarWg.Observability
