import SakhtarWg.EgressSeries

/-!
# Names in the registry

With names as the configuration admits them, everything that the exposition prints between quotes
is a short word of letters, digits and a few signs. This holds in every state that a run of
setters can reach, whatever the snapshots contain otherwise.
-/

namespace SakhtarWg.Observability
open Counters Text

/-! ## Runs -/

/-- One call of a setter. -/
inductive Op
  | setActiveGeneration (g : ℕ)
  | recordReload (outcome : String) (duration : ℤ)
  | setComponent (name : String) (ready : Bool)
  | setDrift (kernel firewall : ℤ)
  | setProxy (snapshot : ProxySnapshot)
  | setDNS (snapshot : DNSSnapshot)
  | setWG (snapshots : List WGSnapshot)
  | setGroups (snapshots : List GroupSnapshot)
  | setProbe (snapshot : ProbeSnapshot)
  | setRouteSource (snapshot : RouteSourceSnapshot)
  | recordPfSync (outcome : String)
  | recordKernelRepair (outcome : String)

def Registry.apply (r : Registry) : Op → Registry
  | .setActiveGeneration g => r.setActiveGeneration g
  | .recordReload outcome duration => r.recordReload outcome duration
  | .setComponent name ready => r.setComponent name ready
  | .setDrift kernel firewall => r.setDrift kernel firewall
  | .setProxy snapshot => r.setProxy snapshot
  | .setDNS snapshot => r.setDNS snapshot
  | .setWG snapshots => r.setWG snapshots
  | .setGroups snapshots => r.setGroups snapshots
  | .setProbe snapshot => r.setProbe snapshot
  | .setRouteSource snapshot => r.setRouteSource snapshot
  | .recordPfSync outcome => r.recordPfSync outcome
  | .recordKernelRepair outcome => r.recordKernelRepair outcome

/-- The names of tunnels, groups and sources are those of an admitted configuration; a probe is
named after a tunnel or has no name. -/
def Op.Admitted : Op → Prop
  | .setWG snapshots => ∀ snapshot ∈ snapshots, interfaceNameOk snapshot.tunnel = true
  | .setGroups snapshots => ∀ snapshot ∈ snapshots, operationalNameRE snapshot.name = true
  | .setProbe snapshot => snapshot.tunnel = "" ∨ operationalNameRE snapshot.tunnel = true
  | .setRouteSource snapshot => operationalNameRE snapshot.name = true
  | _ => True

/-- States of a running registry. -/
inductive Registry.Reachable : Registry → Prop
  | new : Registry.Reachable newRegistry
  | step {r : Registry} {op : Op} : Registry.Reachable r → op.Admitted →
      Registry.Reachable (r.apply op)

/-! ## Plain words -/

def plainWord (s : String) : Bool := s.toList.all nameChar && s.toList.length ≤ 64

theorem plainWord_of_interface {s : String} (h : interfaceNameOk s = true) :
    plainWord s = true := by
  have hchars := interfaceNameOk_chars h
  have hlength : s.toList.length ≤ 15 := by
    have hascii : ∀ c ∈ s.toList, c.toNat < 128 := fun c hc => by
      have := nameChar_range (hchars c hc)
      omega
    simp only [interfaceNameOk, Bool.and_eq_true, decide_eq_true_eq] at h
    rw [byteLen_of_ascii hascii] at h
    exact h.1
  simp only [plainWord, Bool.and_eq_true, List.all_eq_true, decide_eq_true_eq]
  exact ⟨hchars, by omega⟩

theorem plainWord_of_operational {s : String} (h : operationalNameRE s = true) :
    plainWord s = true := by
  simp only [operationalNameRE, Bool.and_eq_true] at h
  simp only [plainWord, Bool.and_eq_true]
  exact ⟨h.1.2, h.2⟩

theorem plainWord_enum {allowed : List String}
    (h : ∀ item ∈ allowed ++ ["other"], plainWord item = true) (value : String) :
    plainWord (enum value allowed) = true := h _ (enum_mem value allowed)

theorem plainWord_boundedOutcome (value : String) : plainWord (boundedOutcome value) = true :=
  plainWord_enum (by decide) value

theorem plainWord_egressIdentity (value : String) : plainWord (egressIdentity value) = true := by
  unfold egressIdentity
  split_ifs with hempty hlong hchars
  · decide
  · decide
  · simp only [plainWord, Bool.and_eq_true, decide_eq_true_eq]
    exact ⟨hchars, Nat.not_lt.mp hlong⟩
  · decide

structure Registry.Plain (r : Registry) : Prop where
  reload : ∀ outcome ∈ r.reload, plainWord outcome = true
  components : ∀ name ∈ r.components, plainWord name = true
  connect : ∃ m, r.proxy.connectAttempts = regroup boundedConnect m
  resolutions : ∃ m, r.dns.resolutions = regroup boundedResolution m
  wg : ∀ name ∈ r.wg, plainWord name = true
  groups : ∀ name snapshot, r.groups.lookup name = some snapshot →
    plainWord name = true ∧ plainWord snapshot.state = true ∧ plainWord snapshot.reason = true
  probes : ∀ name ∈ r.probes, plainWord name = true
  routes : ∀ name ∈ r.routes, plainWord name = true
  pfSync : ∀ outcome ∈ r.pfSync, plainWord outcome = true
  kernelRepair : ∀ outcome ∈ r.kernelRepair, plainWord outcome = true

theorem Registry.Plain.new : newRegistry.Plain where
  reload _ h := absurd h (AList.notMem_empty _)
  components _ h := absurd h (AList.notMem_empty _)
  connect := ⟨∅, rfl⟩
  resolutions := ⟨∅, rfl⟩
  wg _ h := absurd h (AList.notMem_empty _)
  groups _ _ h := by cases h
  probes _ h := absurd h (AList.notMem_empty _)
  routes _ h := absurd h (AList.notMem_empty _)
  pfSync _ h := absurd h (AList.notMem_empty _)
  kernelRepair _ h := absurd h (AList.notMem_empty _)

/-- One more plain key keeps all keys plain. -/
theorem plain_insert {V : Type} {m : AList fun _ : String => V}
    (h : ∀ name ∈ m, plainWord name = true) {key : String} (hkey : plainWord key = true) (v : V) :
    ∀ name ∈ m.insert key v, plainWord name = true := by
  intro name hname
  obtain rfl | hname := (AList.mem_insert m).mp hname
  · exact hkey
  · exact h name hname

theorem Registry.Plain.setComponent {r : Registry} (h : r.Plain) (name : String) (ready : Bool) :
    (r.setComponent name ready).Plain := by
  have hname : plainWord (if name ∈ allowedComponents then name else "config") = true := by
    have hall : ∀ item ∈ allowedComponents, plainWord item = true := by decide
    split
    · exact hall name ‹_›
    · decide
  exact { h with components := plain_insert h.components hname ready }

theorem Registry.Plain.insertRoute {r : Registry} (h : r.Plain) {name : String}
    (hname : plainWord name = true) (snapshot : RouteSourceSnapshot) :
    Registry.Plain { r with routes := r.routes.insert name snapshot } :=
  { h with routes := plain_insert h.routes hname snapshot }

theorem plain_groups (snapshots : List GroupSnapshot)
    (hnames : ∀ snapshot ∈ snapshots, operationalNameRE snapshot.name = true) (r : Registry) :
    ∀ name snapshot, (r.setGroups snapshots).groups.lookup name = some snapshot →
      plainWord name = true ∧ plainWord snapshot.state = true ∧
        plainWord snapshot.reason = true := by
  have hfold : ∀ m : AList fun _ : String => GroupSnapshot,
      (∀ name snapshot, m.lookup name = some snapshot → plainWord name = true ∧
        plainWord snapshot.state = true ∧ plainWord snapshot.reason = true) →
      ∀ name snapshot, (snapshots.foldl (fun m snapshot => m.insert snapshot.name
        { snapshot with
          state := enum snapshot.state Registry.groupStates
          reason := enum snapshot.reason Registry.groupReasons }) m).lookup name =
            some snapshot →
        plainWord name = true ∧ plainWord snapshot.state = true ∧
          plainWord snapshot.reason = true := by
    induction snapshots with
    | nil => exact fun m hm => hm
    | cons first rest ih =>
      intro m hm
      refine ih (fun snapshot hmem => hnames snapshot (List.mem_cons_of_mem first hmem)) _ ?_
      intro name snapshot hlookup
      by_cases hname : name = first.name
      · rw [hname, AList.lookup_insert] at hlookup
        cases hlookup
        rw [hname]
        exact ⟨plainWord_of_operational (hnames first (by simp)),
          plainWord_enum (by decide) _, plainWord_enum (by decide) _⟩
      · rw [AList.lookup_insert_ne hname] at hlookup
        exact hm name snapshot hlookup
  exact hfold ∅ fun _ _ h => by cases h

theorem Registry.Plain.apply {r : Registry} (h : r.Plain) {op : Op} (hop : op.Admitted) :
    (r.apply op).Plain := by
  cases op with
  | setActiveGeneration g => exact { h with }
  | recordReload outcome duration =>
    exact { h with reload := plain_insert h.reload (plainWord_boundedOutcome outcome) _ }
  | setComponent name ready => exact h.setComponent name ready
  | setDrift kernel firewall => exact { h with }
  | setProxy snapshot => exact { h with connect := ⟨snapshot.connectAttempts, rfl⟩ }
  | setDNS snapshot => exact { h with resolutions := ⟨snapshot.resolutions, rfl⟩ }
  | setWG snapshots =>
    refine { h with wg := fun name hname => ?_ }
    obtain ⟨snapshot, hmem, rfl⟩ := List.mem_map.mp ((mem_setWG r snapshots name).mp hname)
    exact plainWord_of_interface (hop snapshot hmem)
  | setGroups snapshots => exact { h with groups := plain_groups snapshots hop r }
  | setProbe snapshot =>
    refine { h with probes := plain_insert h.probes ?_ _ }
    split
    · decide
    · rename_i hname
      obtain hempty | hop := hop
      · exact absurd hempty hname
      · exact plainWord_of_operational hop
  | setRouteSource snapshot =>
    simp only [Registry.apply, Registry.setRouteSource]
    split
    · exact h
    · refine (h.insertRoute ?_ _).setComponent _ _
      split <;> exact plainWord_of_operational hop
  | recordPfSync outcome =>
    have hsync : Registry.Plain { r with pfSync := add r.pfSync (boundedOutcome outcome) 1 } :=
      { h with pfSync := plain_insert h.pfSync (plainWord_boundedOutcome outcome) _ }
    exact hsync.setComponent _ _
  | recordKernelRepair outcome =>
    exact { h with
      kernelRepair := plain_insert h.kernelRepair (plainWord_boundedOutcome outcome) _ }

theorem Registry.Reachable.plain {r : Registry} (h : r.Reachable) : r.Plain := by
  induction h with
  | new => exact .new
  | step _ hop ih => exact ih.apply hop

/-! ## Plain samples -/

/-- A metric of this daemon. None is named as the load generator expects the rejections to be,
and the resolutions are the only one that begins with their name. -/
def plainMetric (name : String) : Bool :=
  plainWord name && "sakhtar_wg_".toList.isPrefixOf name.toList &&
    !"sakhtar_wg_proxy_rejections_total".toList.isPrefixOf name.toList &&
    (!resolutionName.toList.isPrefixOf name.toList || name = resolutionName)

def Sample.Plain (s : Sample) : Prop :=
  plainMetric s.name = true ∧ s.labels.length ≤ 3 ∧
    ∀ label ∈ s.labels, plainWord label.1 = true ∧ plainWord label.2 = true

theorem Sample.plain_none {name : String} (h : plainMetric name = true) (value : ℤ) :
    Sample.Plain ⟨name, [], value⟩ := ⟨h, by simp, by simp⟩

theorem Sample.plain_one {name key word : String} (h : plainMetric name = true)
    (hkey : plainWord key = true) (hword : plainWord word = true) (value : ℤ) :
    Sample.Plain ⟨name, [(key, word)], value⟩ := ⟨h, by simp, by simp [hkey, hword]⟩

theorem Sample.plain_three {name key key' key'' word word' word'' : String}
    (h : plainMetric name = true)
    (hkeys : ∀ k ∈ [key, key', key''], plainWord k = true) (hword : plainWord word = true)
    (hword' : plainWord word' = true) (hword'' : plainWord word'' = true) (value : ℤ) :
    Sample.Plain ⟨name, [(key, word), (key', word'), (key'', word'')], value⟩ := by
  refine ⟨h, by simp, ?_⟩
  simp only [List.mem_cons, List.not_mem_nil, or_false, forall_eq_or_imp, forall_eq] at hkeys ⊢
  exact ⟨⟨hkeys.1, hword⟩, ⟨hkeys.2.1, hword'⟩, hkeys.2.2, hword''⟩

theorem Registry.knownEgress_plain (r : Registry) {value : String}
    (hvalue : plainWord value = true) : plainWord (r.knownEgress value) = true := by
  unfold Registry.knownEgress
  split_ifs
  · exact hvalue
  · exact hvalue
  · decide

/-- In a registry with plain names every sample is plain. -/
theorem Registry.Plain.samples {r : Registry} (h : r.Plain) (process : Process) :
    ∀ s ∈ r.samples process, s.Plain := by
  have hmetrics : ∀ names : List String, (∀ n ∈ names, plainMetric n = true) →
      ∀ n ∈ names, plainMetric n = true := fun _ h => h
  have hwords : ∀ words : List String, (∀ w ∈ words, plainWord w = true) →
      ∀ w ∈ words, plainWord w = true := fun _ h => h
  simp only [Registry.samples, List.forall_mem_append, and_assoc]
  refine ⟨?_, ?_, ?_, ?_, ?_, ?_, ?_, ?_, ?_, ?_, ?_, ?_, ?_, ?_, ?_, ?_⟩
  · exact forall_processSamples fun n hn =>
      Sample.plain_none (hmetrics _ (by decide +kernel) n hn)
  · exact forall_reloadSamples fun outcome houtcome n hn =>
      Sample.plain_one (hmetrics _ (by decide +kernel) n hn) (by decide)
        (h.reload outcome houtcome)
  · exact forall_componentSamples fun name hname =>
      Sample.plain_one (by decide +kernel) (by decide) (h.components name hname)
  · exact forall_gaugeSamples fun n hn => Sample.plain_none (hmetrics _ (by decide +kernel) n hn)
  · exact forall_rejectedSamples fun protocol reason listener =>
      Sample.plain_three (by decide +kernel) (by decide) (plainWord_enum (by decide) _)
        (plainWord_enum (by decide) _) (plainWord_enum (by decide) _)
  · exact forall_sessionSamples fun outcome houtcome n hn =>
      Sample.plain_one (hmetrics _ (by decide +kernel) n hn) (by decide)
        (hwords _ (by decide) outcome houtcome)
  · obtain ⟨m, hm⟩ := h.connect
    refine forall_connectSamples fun key hkey => ?_
    obtain ⟨old, -, hparts, -⟩ := connectSeries_key hm hkey
    simp only [hparts, Registry.connectLabels, List.getD_cons_zero, List.getD_cons_succ]
    exact Sample.plain_three (by decide +kernel) (by decide) (plainWord_enum (by decide) _)
      (plainWord_enum (by decide) _) (r.knownEgress_plain (plainWord_egressIdentity _))
  · refine forall_cacheSamples fun n hn labels hlabels value => ?_
    have hall : ∀ labels ∈ [[], [("class", "positive")], [("class", "negative")]],
        labels.length ≤ 3 ∧ ∀ label ∈ labels, plainWord label.1 = true ∧
          plainWord label.2 = true := by
      decide
    exact ⟨hmetrics _ (by decide +kernel) n hn, hall labels hlabels⟩
  · exact forall_requestSamples fun result =>
      Sample.plain_one (by decide +kernel) (by decide) (plainWord_enum (by decide) _)
  · obtain ⟨m, hm⟩ := h.resolutions
    refine forall_resolutionSamples fun key hkey n hn => ?_
    obtain ⟨old, -, hparts, -⟩ := resolutionSeries_key hm hkey
    simp only [hparts, Registry.resolutionLabels, List.getD_cons_zero, List.getD_cons_succ]
    refine Sample.plain_three (hmetrics _ (by decide +kernel) n hn) (by decide)
      (plainWord_enum (by decide) _) ?_ (r.knownEgress_plain (plainWord_egressIdentity _))
    split <;> decide
  · have hrecent : plainMetric "sakhtar_wg_wg_session_recent" = true := by decide +kernel
    refine forall_wgSamples fun name hname => ⟨fun n hn =>
      Sample.plain_one (hmetrics _ (by decide +kernel) n hn) (by decide) (h.wg name hname),
      fun signal value => ⟨hrecent, by simp, ?_⟩⟩
    have hsignal : plainWord (enum signal Registry.signals) = true :=
      plainWord_enum (by decide) signal
    have hkeys : plainWord "tunnel" = true ∧ plainWord "state" = true := by decide
    simp [hkeys, h.wg name hname, hsignal]
  · exact forall_groupSamples fun name snapshot hlookup =>
      Sample.plain_three (by decide +kernel) (by decide) (h.groups name snapshot hlookup).1
        (h.groups name snapshot hlookup).2.1 (h.groups name snapshot hlookup).2.2
  · exact forall_probeSamples fun name hname n hn =>
      Sample.plain_one (hmetrics _ (by decide +kernel) n hn) (by decide) (h.probes name hname)
  · exact forall_routeSamples fun name hname n hn =>
      Sample.plain_one (hmetrics _ (by decide +kernel) n hn) (by decide) (h.routes name hname)
  · exact forall_pfSyncSamples fun outcome houtcome =>
      Sample.plain_one (by decide +kernel) (by decide) (h.pfSync outcome houtcome)
  · exact forall_kernelRepairSamples fun outcome houtcome =>
      Sample.plain_one (by decide +kernel) (by decide) (h.kernelRepair outcome houtcome)

end SakhtarWg.Observability
