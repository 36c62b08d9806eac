import SakhtarWg.RouteRefresh
import SakhtarWg.SourceText

/-!
# Runs of the route updater

One goroutine runs the cycles: each takes the base, fetches its sources one after the
other, keeps what was fetched, and writes the disk cache when something in memory has
changed. The main loop swaps the base and merges at any moment in between.
-/

namespace SakhtarWg
open Text Netip Fallible

/-! ## Sorted sets -/

theorem sortDedup_pairwise (l : List String) : (sortDedup l).Pairwise (· < ·) := by
  have hsorted : (sortDedup l).Pairwise (· ≤ ·) := List.pairwise_insertionSort (· ≤ ·) _
  have hnodup : (sortDedup l).Nodup := (sortStrings_perm _).nodup_iff.mpr (List.nodup_dedup l)
  apply (hsorted.and hnodup).imp
  intro a b hab
  apply String.not_le.mp
  intro hba
  exact hab.2 (String.le_antisymm hab.1 hba)

theorem sortDedup_sortDedup (l : List String) : sortDedup (sortDedup l) = sortDedup l := by
  have hnodup : (sortDedup l).Nodup := (sortStrings_perm _).nodup_iff.mpr (List.nodup_dedup l)
  have hdedup : (sortDedup l).dedup = sortDedup l := hnodup.dedup
  conv_lhs => rw [sortDedup, hdedup]
  exact sortStrings_eq_of_perm (sortStrings_perm _)

theorem sortDedup_ne_nil {l : List String} (h : l ≠ []) : sortDedup l ≠ [] := by
  obtain ⟨s, hs⟩ := List.exists_mem_of_ne_nil l h
  exact List.ne_nil_of_mem (mem_sortDedup.mpr hs)

/-! ## Fetching -/

/-- What the HTTP client brings back: an error, or the status and the body. -/
inductive FetchResponse
  | failed (err : String)
  | answered (status : ℕ) (body : ByteArray)

def readBounded (body : ByteArray) (limit : ℕ) : Except String ByteArray :=
  if limit < body.size then .error ("input exceeds " ++ toString limit ++ " bytes") else .ok body

section
variable (decode : ByteArray → Except String (List String))

def fetchSource (src : RouteSource) : FetchResponse → Except String (List String)
  | .failed err => .error err
  | .answered status body => do
    require (status = 200) ("http " ++ toString status)
    let body ← (readBounded body maxSourceBytes).mapError fun e => "source body: " ++ e
    if src.format = "cidr-lines" then SourceText.parseCIDRLines body
    else if src.format = "ripe-prefixes" then SourceText.parseRIPEPrefixes decode body
    else .error ("unknown format " ++ quote src.format)

/-- A fetch that succeeds has found something. -/
theorem fetchSource_ne_nil {src : RouteSource} {response : FetchResponse} {cidrs : List String}
    (h : fetchSource decode src response = .ok cidrs) : cidrs ≠ [] := by
  cases response with
  | failed err => cases h
  | answered status body =>
    simp only [fetchSource, bind_eq_ok] at h
    obtain ⟨_, -, body, -, h⟩ := h
    split at h
    · simp only [SourceText.parseCIDRLines, bind_eq_ok, require_eq_ok, pure_eq_ok] at h
      obtain ⟨_, -, _, hne, rfl⟩ := h
      simpa using hne
    · split at h
      · simp only [SourceText.parseRIPEPrefixes, bind_eq_ok, require_eq_ok, pure_eq_ok] at h
        obtain ⟨_, -, prefixes, -, _, hne, rfl⟩ := h
        simpa using hne
      · cases h

/-! ## Cycles and the disk cache -/

/-- The calls of a cache write that can fail. -/
inductive SaveFault
  | mkdirAll | chmod | writeFile | rename

/-- The updater and the sets its cache file holds; a missing or unreadable file holds none. -/
structure UpdaterState where
  updater : RouteUpdater
  disk : String → List String

/-- `NewRouteUpdater` reads the cache file. -/
def UpdaterState.start (base : Config) (disk : String → List String) : UpdaterState :=
  ⟨newRouteUpdater base disk, disk⟩

/-- The new file is written beside the old one and renamed, so a failure leaves the old one. -/
def UpdaterState.saveCache (s : UpdaterState) : Option SaveFault → UpdaterState
  | none => { s with disk := s.updater.fetched }
  | some _ => s

/-- One source of a cycle: the updater and the flag that says whether something changed. -/
def fetchStep (acc : RouteUpdater × Bool) (src : RouteSource) (response : FetchResponse) :
    RouteUpdater × Bool :=
  match fetchSource decode src response with
  | .error _ => acc
  | .ok cidrs =>
    if acc.1.fetched src.name = sortDedup cidrs then acc
    else (acc.1.record src.name cidrs, true)

/-- The sources of a cycle, one after the other. -/
def fetchAll (answers : String → FetchResponse) (l : List RouteSource)
    (acc : RouteUpdater × Bool) : RouteUpdater × Bool :=
  l.foldl (fun acc src => fetchStep decode acc src (answers src.name)) acc

/-- The end of a cycle: the cache is written only if the flag is set. -/
def UpdaterState.finish (s : UpdaterState) (changed : Bool) (fault : Option SaveFault) :
    UpdaterState :=
  if changed then s.saveCache fault else s

/-- A whole cycle, given the answer for each source and what becomes of a cache write. -/
def UpdaterState.cycle (s : UpdaterState) (answers : String → FetchResponse)
    (fault : Option SaveFault) : UpdaterState :=
  let acc := fetchAll decode answers (cycleSources s.updater.base) (s.updater, false)
  UpdaterState.finish { s with updater := acc.1 } acc.2 fault

inductive CycleEvent
  | cycle (answers : String → FetchResponse) (fault : Option SaveFault)
  | setBase (base : Config)

/-- No cache write fails in the event. -/
def CycleEvent.Saved : CycleEvent → Prop
  | .cycle _ fault => fault = none
  | .setBase _ => True

def UpdaterState.step (s : UpdaterState) : CycleEvent → UpdaterState
  | .cycle answers fault => s.cycle decode answers fault
  | .setBase base => { s with updater := s.updater.setBase base }

end

/-! ## The loop over the sources -/

section
variable (decode : ByteArray → Except String (List String))

/-- The answer of the source is another set than the one in memory. -/
def Differs (u : RouteUpdater) (src : RouteSource) (response : FetchResponse) : Prop :=
  ∃ cidrs, fetchSource decode src response = .ok cidrs ∧ sortDedup cidrs ≠ u.fetched src.name

/-- A fetch leaves everything as it was, or records another set and sets the flag. -/
theorem fetchStep_cases (acc : RouteUpdater × Bool) (src : RouteSource)
    (response : FetchResponse) :
    (¬Differs decode acc.1 src response ∧ fetchStep decode acc src response = acc) ∨
      ∃ cidrs, fetchSource decode src response = .ok cidrs ∧
        Differs decode acc.1 src response ∧
        fetchStep decode acc src response = (acc.1.record src.name cidrs, true) := by
  unfold fetchStep Differs
  cases hfetch : fetchSource decode src response with
  | error e => exact .inl ⟨by simp, rfl⟩
  | ok cidrs =>
    by_cases hsame : acc.1.fetched src.name = sortDedup cidrs
    · refine .inl ⟨?_, if_pos hsame⟩
      rintro ⟨other, hok, hne⟩
      rw [← Except.ok.inj hok] at hne
      exact hne hsame.symm
    · exact .inr ⟨cidrs, rfl, ⟨cidrs, rfl, fun h => hsame h.symm⟩, if_neg hsame⟩

variable {decode} {answers : String → FetchResponse}

theorem fetchAll_cons (src : RouteSource) (l : List RouteSource) (acc : RouteUpdater × Bool) :
    fetchAll decode answers (src :: l) acc =
      fetchAll decode answers l (fetchStep decode acc src (answers src.name)) := rfl

theorem fetchAll_flag {l : List RouteSource} {acc : RouteUpdater × Bool} (h : acc.2 = true) :
    (fetchAll decode answers l acc).2 = true := by
  induction l generalizing acc with
  | nil => exact h
  | cons src l ih =>
    rw [fetchAll_cons]
    rcases fetchStep_cases decode acc src (answers src.name) with ⟨-, heq⟩ | ⟨cidrs, -, -, heq⟩
    · rw [heq]
      exact ih h
    · rw [heq]
      exact ih rfl

/-- Without another set the loop changes nothing, with one it sets the flag. -/
theorem fetchAll_same {l : List RouteSource} {acc : RouteUpdater × Bool}
    (h : ∀ src ∈ l, ¬Differs decode acc.1 src (answers src.name)) :
    fetchAll decode answers l acc = acc := by
  induction l with
  | nil => rfl
  | cons src l ih =>
    rw [List.forall_mem_cons] at h
    rcases fetchStep_cases decode acc src (answers src.name) with ⟨-, heq⟩ | ⟨_, -, hdiffers, -⟩
    · rw [fetchAll_cons, heq]
      exact ih h.2
    · exact absurd hdiffers h.1

theorem fetchAll_changed {l : List RouteSource} {acc : RouteUpdater × Bool}
    (h : ∃ src ∈ l, Differs decode acc.1 src (answers src.name)) :
    (fetchAll decode answers l acc).2 = true := by
  induction l with
  | nil => simp at h
  | cons src l ih =>
    rw [fetchAll_cons]
    rcases fetchStep_cases decode acc src (answers src.name) with ⟨hsame, heq⟩ | ⟨_, -, -, heq⟩
    · rw [heq]
      apply ih
      simpa [hsame] using h
    · rw [heq]
      exact fetchAll_flag rfl

end

/-! ## Memory and disk -/

namespace UpdaterState

/-- A restart would load the sets that are in memory. -/
def InStep (s : UpdaterState) : Prop :=
  (newRouteUpdater s.updater.base s.disk).fetched = s.updater.fetched

theorem InStep.loaded {s : UpdaterState} (h : s.InStep) (name : String) :
    sortDedup (s.disk name) = s.updater.fetched name :=
  congrFun h name

/-- Some source of the cycle answers with another set than the one in memory. -/
def Fresh (decode : ByteArray → Except String (List String)) (s : UpdaterState)
    (answers : String → FetchResponse) : Prop :=
  ∃ src ∈ cycleSources s.updater.base, Differs decode s.updater src (answers src.name)

/-- Every set in memory is sorted and without duplicates. -/
def Tidy (u : RouteUpdater) : Prop := ∀ name, sortDedup (u.fetched name) = u.fetched name

theorem Tidy.record {u : RouteUpdater} (h : Tidy u) (source : String) (cidrs : List String) :
    Tidy (u.record source cidrs) := by
  intro name
  by_cases hname : name = source
  · subst hname
    simp [RouteUpdater.record, sortDedup_sortDedup]
  · simpa [RouteUpdater.record, hname] using h name

section
variable {decode : ByteArray → Except String (List String)} {answers : String → FetchResponse}

theorem Tidy.fetchAll {l : List RouteSource} {acc : RouteUpdater × Bool} (h : Tidy acc.1) :
    Tidy (fetchAll decode answers l acc).1 := by
  induction l generalizing acc with
  | nil => exact h
  | cons src l ih =>
    rw [fetchAll_cons]
    rcases fetchStep_cases decode acc src (answers src.name) with ⟨-, heq⟩ | ⟨cidrs, -, -, heq⟩
    · rw [heq]
      exact ih h
    · rw [heq]
      exact ih (h.record _ _)

variable {s : UpdaterState}

theorem finish_updater (changed : Bool) (fault : Option SaveFault) :
    (s.finish changed fault).updater = s.updater := by
  unfold finish saveCache
  cases changed <;> cases fault <;> rfl

theorem Tidy.step (h : Tidy s.updater) (e : CycleEvent) : Tidy (s.step decode e).updater := by
  cases e with
  | cycle answers fault =>
    change Tidy (s.cycle decode answers fault).updater
    rw [cycle, finish_updater]
    exact Tidy.fetchAll h
  | setBase base => exact h

/-- A cycle that fetches nothing new leaves memory and disk, one that does writes the disk. -/
theorem inStep_cycle (h : Tidy s.updater) :
    (s.cycle decode answers none).InStep ↔ s.InStep ∨ s.Fresh decode answers := by
  by_cases hfresh : s.Fresh decode answers
  · have hflag : (fetchAll decode answers (cycleSources s.updater.base) (s.updater, false)).2 =
        true := fetchAll_changed hfresh
    simp only [hfresh, or_true, iff_true]
    rw [cycle, hflag]
    funext name
    exact Tidy.fetchAll h name
  · have hsame : fetchAll decode answers (cycleSources s.updater.base) (s.updater, false) =
        (s.updater, false) := by
      apply fetchAll_same
      intro src hsrc hdiffers
      exact hfresh ⟨src, hsrc, hdiffers⟩
    simp only [hfresh, or_false, cycle, hsame]
    rfl

/-- While no write fails the disk keeps up. -/
theorem InStep.step (htidy : Tidy s.updater) (h : s.InStep) {e : CycleEvent} (he : e.Saved) :
    (s.step decode e).InStep := by
  cases e with
  | cycle answers fault =>
    obtain rfl : fault = none := he
    exact (inStep_cycle htidy).mpr (.inl h)
  | setBase base => exact h

end

/-- After any sequence of cycles the sets on disk are those in memory as long as no write has
failed; and after a cycle in which none fails they are exactly when they were before the cycle, or
when the cycle brought a set that memory did not have. -/
theorem cache_in_step_iff (decode : ByteArray → Except String (List String)) (base : Config)
    (disk : String → List String) (events : List CycleEvent) :
    let s := events.foldl (step decode) (start base disk)
    ((∀ e ∈ events, e.Saved) → s.InStep) ∧
      ∀ answers, (s.cycle decode answers none).InStep ↔ s.InStep ∨ s.Fresh decode answers := by
  have hrun : ∀ s : UpdaterState, Tidy s.updater →
      Tidy (events.foldl (step decode) s).updater ∧
        (s.InStep → (∀ e ∈ events, e.Saved) → (events.foldl (step decode) s).InStep) := by
    induction events with
    | nil => exact fun s htidy => ⟨htidy, fun h _ => h⟩
    | cons e events ih =>
      intro s htidy
      obtain ⟨htidy', hstep⟩ := ih _ (htidy.step e)
      refine ⟨htidy', fun h hsaved => ?_⟩
      rw [List.forall_mem_cons] at hsaved
      exact hstep (h.step htidy hsaved.1) hsaved.2
  obtain ⟨htidy, hkept⟩ := hrun (start base disk) fun name => sortDedup_sortDedup _
  exact ⟨hkept rfl, fun answers => inStep_cycle htidy⟩

/-- One tunnel with one source. -/
def feedFile : Config :=
  sampleFile [sampleTunnel "wg0" 1 [] [⟨"feed", "https://feed", "cidr-lines", "direct"⟩]]
    ⟨false, [], ""⟩

def feedAnswer : String → FetchResponse := fun _ => .answered 200 "1.2.3.4".toByteArray

theorem cache_in_step_saved :
    let s := [CycleEvent.cycle feedAnswer none].foldl (step fun _ => .ok [])
      (start feedFile fun _ => [])
    s.InStep ∧ s.disk "feed" = ["1.2.3.4/32"] := by
  intro s
  have hsaved : ∀ e ∈ [CycleEvent.cycle feedAnswer none], e.Saved := by
    intro e he
    rw [List.mem_singleton.mp he]
    exact rfl
  exact ⟨(cache_in_step_iff (fun _ => .ok []) feedFile (fun _ => []) _).1 hsaved, by decide +kernel⟩

/-- The first write fails, the second cycle fetches the same set and does not write: a restart
loses the routes that are in memory. -/
theorem cache_left_behind :
    let s := [CycleEvent.cycle feedAnswer (some .writeFile), .cycle feedAnswer none].foldl
      (step fun _ => .ok []) (start feedFile fun _ => [])
    s.updater.fetched "feed" = ["1.2.3.4/32"] ∧ s.disk "feed" = [] ∧ ¬s.InStep := by
  intro s
  have hmemory : s.updater.fetched "feed" = ["1.2.3.4/32"] := by decide +kernel
  have hdisk : s.disk "feed" = [] := by decide +kernel
  refine ⟨hmemory, hdisk, fun h => ?_⟩
  have hloaded := h.loaded "feed"
  rw [hdisk, hmemory] at hloaded
  exact absurd hloaded (by decide)

end UpdaterState

/-! ## Interleavings -/

/-- Where the goroutine is: between cycles, or inside one with the sources that are left. -/
inductive CyclePhase
  | idle
  | fetching (todo : List RouteSource) (changed : Bool)

structure UpdaterRun where
  state : UpdaterState
  phase : CyclePhase

/-- What the goroutine and the main loop do next. -/
inductive UpdaterEvent
  | wake
  | fetch (response : FetchResponse)
  | finish (fault : Option SaveFault)
  | setBase (base : Config)
  | merge
  | mergeBase (candidate : Config)

def UpdaterEvent.base? : UpdaterEvent → Option Config
  | .setBase base => some base
  | _ => none

namespace UpdaterRun

def start (base : Config) (disk : String → List String) : UpdaterRun :=
  ⟨UpdaterState.start base disk, .idle⟩

section
variable (decode : ByteArray → Except String (List String))

/-- The next state, and the configuration that is sent or returned. -/
def step (r : UpdaterRun) : UpdaterEvent → UpdaterRun × Option Config
  | .wake =>
    match r.phase with
    | .idle => ({ r with phase := .fetching (cycleSources r.state.updater.base) false }, none)
    | _ => (r, none)
  | .fetch response =>
    match r.phase with
    | .fetching (src :: todo) changed =>
      let acc := fetchStep decode (r.state.updater, changed) src response
      (⟨{ r.state with updater := acc.1 }, .fetching todo acc.2⟩, none)
    | _ => (r, none)
  | .finish fault =>
    match r.phase with
    | .fetching [] changed =>
      let s := r.state.finish changed fault
      (⟨s, .idle⟩, some s.updater.merge)
    | _ => (r, none)
  | .setBase base =>
    ({ r with state := { r.state with updater := r.state.updater.setBase base } }, none)
  | .merge => (r, some r.state.updater.merge)
  | .mergeBase candidate => (r, some (r.state.updater.mergeBase candidate))

def after (r : UpdaterRun) (events : List UpdaterEvent) : UpdaterRun :=
  events.foldl (fun r e => (r.step decode e).1) r

/-- The fetch that succeeds in an event: the source and the list that was parsed. -/
def recorded (r : UpdaterRun) : UpdaterEvent → List (String × List String)
  | .fetch response =>
    match r.phase with
    | .fetching (src :: _) _ =>
      ((fetchSource decode src response).toOption.map fun cidrs => (src.name, cidrs)).toList
    | _ => []
  | _ => []

/-- The successful fetches of a run, in their order. -/
def history (r : UpdaterRun) : List UpdaterEvent → List (String × List String)
  | [] => []
  | e :: events => r.recorded decode e ++ history (r.step decode e).1 events

end

/-- The set of the last successful fetch of the source, or else the given one. -/
def lastGood (kept : List String) (name : String) (fetches : List (String × List String)) :
    List String :=
  fetches.foldl (fun kept fetch => if fetch.1 = name then sortDedup fetch.2 else kept) kept

/-- The base the run has last been given. -/
def lastBase (base : Config) (events : List UpdaterEvent) : Config :=
  events.foldl (fun base e => e.base?.getD base) base

/-- The configuration with the routes of every tunnel replaced by the sorted union, without
duplicates, of its static routes in normal form and the sets of its sources. -/
structure Merged (fetched : String → List String) (base merged : Config) : Prop where
  rest : merged = { base with tunnels := merged.tunnels }
  tunnels : List.Forall₂ (fun t t' => t' = { t with routes := t'.routes } ∧
    t'.routes.Pairwise (· < ·) ∧
    ∀ s, s ∈ t'.routes ↔ (∃ raw ∈ t.routes, normalizeIPv4CIDR raw = some s) ∨
      ∃ src ∈ t.routeSources, s ∈ fetched src.name) base.tunnels merged.tunnels

theorem merged_mergeBase (u : RouteUpdater) (base : Config) :
    Merged u.fetched base (u.mergeBase base) := by
  refine ⟨rfl, ?_⟩
  apply List.forall₂_map_right_iff.mpr
  apply List.forall₂_same.mpr
  intro t _
  refine ⟨rfl, sortDedup_pairwise _, fun s => ?_⟩
  simp [RouteUpdater.mergeTunnel, mem_sortDedup, RouteUpdater.fetchedFor]

section
variable (decode : ByteArray → Except String (List String))

/-- What an event does to the updater: a new base, one fetch, or nothing. -/
theorem step_cases (r : UpdaterRun) (e : UpdaterEvent) :
    (∃ base, e = .setBase base ∧
      (r.step decode e).1.state.updater = r.state.updater.setBase base ∧
      r.recorded decode e = []) ∨
    (∃ src response changed, e.base? = none ∧ (r.step decode e).1.state.updater =
        (fetchStep decode (r.state.updater, changed) src response).1 ∧
      r.recorded decode e =
        ((fetchSource decode src response).toOption.map fun cidrs => (src.name, cidrs)).toList) ∨
    (e.base? = none ∧ (r.step decode e).1.state.updater = r.state.updater ∧
      r.recorded decode e = []) := by
  cases e with
  | setBase base => exact .inl ⟨base, rfl, rfl, rfl⟩
  | fetch response =>
    cases hphase : r.phase with
    | idle => exact .inr (.inr ⟨rfl, by simp [step, hphase], by simp [recorded, hphase]⟩)
    | fetching todo changed =>
      cases todo with
      | nil => exact .inr (.inr ⟨rfl, by simp [step, hphase], by simp [recorded, hphase]⟩)
      | cons src todo =>
        exact .inr (.inl ⟨src, response, changed, rfl, by simp [step, hphase],
          by simp [recorded, hphase]⟩)
  | wake =>
    refine .inr (.inr ⟨rfl, ?_, rfl⟩)
    cases hphase : r.phase <;> simp [step, hphase]
  | finish fault =>
    refine .inr (.inr ⟨rfl, ?_, rfl⟩)
    simp only [step]
    split
    · exact UpdaterState.finish_updater _ _
    · rfl
  | merge => exact .inr (.inr ⟨rfl, rfl, rfl⟩)
  | mergeBase candidate => exact .inr (.inr ⟨rfl, rfl, rfl⟩)

/-- After a fetch memory holds what was fetched, or what it held. -/
theorem fetchStep_fetched (acc : RouteUpdater × Bool) (src : RouteSource)
    (response : FetchResponse) (name : String) :
    (fetchStep decode acc src response).1.fetched name =
      lastGood (acc.1.fetched name) name
        ((fetchSource decode src response).toOption.map fun cidrs => (src.name, cidrs)).toList := by
  unfold fetchStep
  cases fetchSource decode src response with
  | error e => rfl
  | ok cidrs =>
    simp only [Except.toOption, Option.map_some, Option.toList_some, lastGood, List.foldl_cons,
      List.foldl_nil]
    by_cases hname : src.name = name
    · subst hname
      by_cases hsame : acc.1.fetched src.name = sortDedup cidrs
      · simp [hsame]
      · simp [hsame, RouteUpdater.record]
    · have hname' : ¬name = src.name := fun h => hname h.symm
      by_cases hsame : acc.1.fetched src.name = sortDedup cidrs
      · simp [hsame, hname]
      · simp [hsame, hname, hname', RouteUpdater.record]

/-- One event changes memory only by a successful fetch. -/
theorem step_fetched (r : UpdaterRun) (e : UpdaterEvent) (name : String) :
    (r.step decode e).1.state.updater.fetched name =
      lastGood (r.state.updater.fetched name) name (r.recorded decode e) := by
  rcases step_cases decode r e with ⟨base, -, hstep, hnone⟩ |
    ⟨src, response, changed, -, hstep, hfetch⟩ | ⟨-, hstep, hnone⟩
  · rw [hstep, hnone]
    rfl
  · rw [hstep, hfetch]
    exact fetchStep_fetched decode _ src response name
  · rw [hstep, hnone]
    rfl

/-- No event replaces a set by the empty one. -/
theorem step_ne_nil (r : UpdaterRun) (e : UpdaterEvent) (name : String) :
    (r.step decode e).1.state.updater.fetched name = r.state.updater.fetched name ∨
      (r.step decode e).1.state.updater.fetched name ≠ [] := by
  rcases step_cases decode r e with ⟨base, -, hstep, -⟩ |
    ⟨src, response, changed, -, hstep, -⟩ | ⟨-, hstep, -⟩
  · rw [hstep]
    exact .inl rfl
  · rw [hstep]
    rcases fetchStep_cases decode (r.state.updater, changed) src response with
      ⟨-, heq⟩ | ⟨cidrs, hok, -, heq⟩
    · rw [heq]
      exact .inl rfl
    · rw [heq]
      by_cases hname : name = src.name
      · subst hname
        right
        simpa [RouteUpdater.record] using sortDedup_ne_nil (fetchSource_ne_nil decode hok)
      · exact .inl (by simp [RouteUpdater.record, hname])
  · exact .inl (by rw [hstep])

theorem step_base (r : UpdaterRun) (e : UpdaterEvent) :
    (r.step decode e).1.state.updater.base = e.base?.getD r.state.updater.base := by
  rcases step_cases decode r e with ⟨base, rfl, hstep, -⟩ |
    ⟨src, response, changed, hnone, hstep, -⟩ | ⟨hnone, hstep, -⟩
  · rw [hstep]
    rfl
  · rw [hstep, hnone]
    rcases fetchStep_cases decode (r.state.updater, changed) src response with
      ⟨-, heq⟩ | ⟨cidrs, -, -, heq⟩
    · rw [heq]
      rfl
    · rw [heq]
      rfl
  · rw [hstep, hnone]
    rfl

/-- Memory after a run. -/
theorem after_fetched (r : UpdaterRun) (events : List UpdaterEvent) (name : String) :
    (r.after decode events).state.updater.fetched name =
      lastGood (r.state.updater.fetched name) name (r.history decode events) := by
  induction events generalizing r with
  | nil => rfl
  | cons e events ih =>
    change ((r.step decode e).1.after decode events).state.updater.fetched name = _
    rw [ih, step_fetched, history, lastGood, lastGood, lastGood, List.foldl_append]

theorem after_base (r : UpdaterRun) (events : List UpdaterEvent) :
    (r.after decode events).state.updater.base = lastBase r.state.updater.base events := by
  induction events generalizing r with
  | nil => rfl
  | cons e events ih =>
    change ((r.step decode e).1.after decode events).state.updater.base = _
    rw [ih, step_base]
    rfl

/-- Whatever is fetched, swapped and merged in between: memory holds the last good set of every
source and never trades it for an empty one, and a merge gives every tunnel its static routes and
the sets of its sources without touching the updater. -/
theorem routes_kept (base : Config) (disk : String → List String) (events : List UpdaterEvent) :
    let r := (start base disk).after decode events
    let u := r.state.updater
    (∀ name, u.fetched name =
      lastGood (sortDedup (disk name)) name ((start base disk).history decode events)) ∧
    (∀ e name, (r.step decode e).1.state.updater.fetched name = u.fetched name ∨
      (r.step decode e).1.state.updater.fetched name ≠ []) ∧
    u.base = lastBase base events ∧
    (∃ merged, r.step decode .merge = (r, some merged) ∧ Merged u.fetched u.base merged) ∧
    ∀ candidate, ∃ merged, r.step decode (.mergeBase candidate) = (r, some merged) ∧
      Merged u.fetched candidate merged := by
  intro r u
  refine ⟨?_, fun e name => step_ne_nil decode r e name, after_base decode _ events, ?_, ?_⟩
  · intro name
    exact after_fetched decode (start base disk) events name
  · exact ⟨_, rfl, merged_mergeBase u u.base⟩
  · intro candidate
    exact ⟨_, rfl, merged_mergeBase u candidate⟩

end

end UpdaterRun

end SakhtarWg
