import SakhtarWg.DnsCalls

/-!
# How old an answer can be

A last good answer travels from an entry to a flight and from there to the entry of a
failure. Along the way its deadline stays the end of its own stale window.
-/

namespace SakhtarWg.Dns
open Netip

variable {p : ValidPolicy}

/-! ## Deadlines -/

/-- The deadline of a last good answer is the end of its stale window. -/
def Dated (p : Policy) (stale : Result) (staleUntil : ℤ) : Prop :=
  stale.addrs ≠ [] → staleUntil = stale.expiresAt + p.staleWindow

structure EntryDated (p : Policy) (entry : CacheEntry) : Prop where
  result : entry.result.rcode = .success →
    entry.staleUntil = entry.result.expiresAt + p.staleWindow
  stale : Dated p entry.stale entry.staleUntil

structure FlightDated (p : Policy) (flight : Flight) : Prop where
  stale : Dated p flight.stale flight.staleUntil
  serve : flight.serveStale = true → p.stalePolicy = .transient
  carried : ∀ entry now, flight.carries entry now →
    EntryDated p entry ∧ (entry.result.rcode = .success → now < entry.result.expiresAt)

theorem canServeStale_iff {p : Policy} {entry : CacheEntry} {now : ℤ} :
    canServeStale p entry now = true ↔
      p.stalePolicy = .transient ∧ entry.stale.addrs ≠ [] ∧ now < entry.staleUntil := by
  simp [canServeStale]

/-- A positive answer outlives the reading at which it was received. -/
theorem normalizeResult_fresh (p : ValidPolicy) (raw : Result) (rawErr : Option String)
    (now : ℤ) (h : (p.normalizeResult raw rawErr now).1.rcode = .success) :
    now < (p.normalizeResult raw rawErr now).1.expiresAt := by
  obtain ⟨hmin, hmax⟩ := Policy.ttl_pos p.valid
  unfold Policy.normalizeResult at h ⊢
  split at h
  · cases h
  · dsimp only at h ⊢
    split at h
    · dsimp only
      split_ifs <;> omega
    all_goals cases h

theorem resolvedEntry_dated (p : ValidPolicy) {flight : Flight} (h : FlightDated p.toPolicy flight)
    (answer : Answer) (now : ℤ) : EntryDated p.toPolicy (resolvedEntry p.toPolicy flight answer now) ∧
      ((resolvedEntry p.toPolicy flight answer now).result.rcode = .success →
        now < (resolvedEntry p.toPolicy flight answer now).result.expiresAt) := by
  have hfresh := normalizeResult_fresh p (callResolver answer).1 (callResolver answer).2 now
  simp only [resolvedEntry]
  split_ifs with hs ht
  · exact ⟨⟨fun _ => rfl, fun hn => absurd rfl hn⟩, hfresh⟩
  · exact ⟨⟨fun hs' => absurd hs' hs, h.stale⟩, hfresh⟩
  · exact ⟨⟨fun hs' => absurd hs' hs, fun hn => absurd rfl hn⟩, hfresh⟩

theorem dated_closed (p : ValidPolicy) :
    Closed p.toPolicy (fun _ e => EntryDated p.toPolicy e) (FlightDated p.toPolicy) where
  fresh k q entry now h := by
    have hcarries : ∀ entry' now', ¬ (freshFlight p.toPolicy k q entry now).carries entry' now' := by
      intro entry' now'
      simp [Flight.carries, freshFlight_phase]
    refine ⟨?_, ?_, fun entry' now' hc => absurd hc (hcarries entry' now')⟩
    · simp only [freshFlight]
      split_ifs <;> exact fun hn => absurd rfl hn
    · simp only [freshFlight]
      split_ifs <;> exact fun hn => by cases hn
  insert flight entry now h hphase := by
    have hentry := h.carried entry now (.inl hphase)
    refine ⟨hentry.1, h.stale, h.serve, fun entry' now' hc => ?_⟩
    simp only [Flight.carries, Phase.finishing.injEq, reduceCtorEq, false_or] at hc
    rw [← hc.1, ← hc.2]
    exact hentry
  finish flight entry now h hphase :=
    ⟨h.stale, h.serve, fun entry' now' hc => by simp [Flight.carries, publishedFlight] at hc⟩

/-! ## What a call may be given -/

/-- A positive answer to a call that entered at `e`, if it had expired by then, is a last good
answer within its window. -/
def Fine (p : Policy) (e : ℤ) (r : Result) (err : Option Error) : Prop :=
  err = none → r.rcode = .success → r.expiresAt ≤ e →
    p.stalePolicy = .transient ∧ e < r.expiresAt + p.staleWindow

/-- What a flight will give to a call that entered at `e` is fine. -/
structure Promise (p : Policy) (flight : Flight) (e : ℤ) : Prop where
  carried : ∀ entry now, flight.carries entry now →
    Fine p e (publishedFlight p flight entry now).result (publishedFlight p flight entry now).err
  closed : flight.phase = .closed → Fine p e flight.result flight.err

theorem fine_of_stale {p : Policy} {entry : CacheEntry} (h : EntryDated p entry) {now e : ℤ}
    (hserve : canServeStale p entry now = true) (hle : e ≤ now) : Fine p e entry.stale none := by
  intro _ _ _
  obtain ⟨hpolicy, haddrs, hnow⟩ := canServeStale_iff.mp hserve
  rw [h.stale haddrs] at hnow
  exact ⟨hpolicy, by omega⟩

/-- An answer received after the call entered is fine for it. -/
theorem fine_of_answer {p : Policy} {flight : Flight} {entry : CacheEntry} {now e : ℤ}
    (h : EntryDated p entry) (hfresh : entry.result.rcode = .success → now < entry.result.expiresAt)
    (hle : e ≤ now) :
    Fine p e (publishedFlight p flight entry now).result (publishedFlight p flight entry now).err := by
  simp only [publishedFlight]
  cases hs : servesStale p entry now with
  | true =>
    simp only [servesStale, decide_eq_true_eq] at hs
    exact fine_of_stale h hs.2 hle
  | false =>
    intro _ hpos hexp
    have := hfresh hpos
    simp only [Bool.false_eq_true, if_false] at hexp
    omega

/-- A fresh entry found after the call entered is fine for it. -/
theorem fine_of_fresh {p : Policy} {k : Key} {q : Query} {entry : CacheEntry} {now now' e : ℤ}
    (h : EntryDated p entry) (hfresh : now < entry.result.expiresAt) (hle : e ≤ now)
    (hnow : now ≤ now') : Fine p e (freshFlight p k q entry now').result
      (freshFlight p k q entry now').err := by
  simp only [freshFlight]
  split_ifs with hs ht
  · exact fine_of_stale h hs.2 (by omega)
  · intro _ hpos _
    rw [ht] at hpos
    cases hpos
  · intro _ _ hexp
    dsimp only at hexp
    omega

/-- An answer received before the call entered is fine for it while it is good at its reading. -/
theorem fine_of_join {p : Policy} {flight : Flight} {entry : CacheEntry} {now e : ℤ}
    (h : EntryDated p entry)
    (hgood : (servesStale p entry now = true → e < entry.staleUntil) ∧
      (entry.result.rcode = .success → e < entry.result.expiresAt ∨
        (p.stalePolicy = .transient ∧ e < entry.staleUntil))) :
    Fine p e (publishedFlight p flight entry now).result (publishedFlight p flight entry now).err := by
  simp only [publishedFlight]
  cases hs : servesStale p entry now with
  | true =>
    have huntil := hgood.1 hs
    simp only [servesStale, decide_eq_true_eq] at hs
    obtain ⟨hpolicy, haddrs, -⟩ := canServeStale_iff.mp hs.2
    rw [h.stale haddrs] at huntil
    exact fun _ _ _ => ⟨hpolicy, huntil⟩
  | false =>
    intro _ hpos hexp
    simp only [Bool.false_eq_true, if_false] at hpos hexp ⊢
    rcases hgood.2 hpos with hfresh | ⟨hpolicy, huntil⟩
    · omega
    · rw [h.result hpos] at huntil
      exact ⟨hpolicy, huntil⟩

/-- How a call that entered at `e` stands. -/
def CallFine (c : Cache p) (e : ℤ) : Call → Prop
  | .taking _ _ now => now = e
  | .starting _ _ stale staleUntil refresh => Dated p.toPolicy stale staleUntil ∧
      (refresh = true → p.stalePolicy = .transient ∧ stale.addrs ≠ [] ∧ e < staleUntil)
  | .joined f stale refresh =>
      (refresh = true → p.stalePolicy = .transient ∧ e < stale.expiresAt + p.staleWindow) ∧
      ∃ flight, c.heap[f]? = some flight ∧ Promise p.toPolicy flight e ∧
        (refresh = false → flight.serveStale = true → flight.stale.addrs ≠ [] →
          e < flight.staleUntil)
  | .waiting f => ∃ flight, c.heap[f]? = some flight ∧ Promise p.toPolicy flight e
  | .returned r err => Fine p.toPolicy e r err

structure Bounded (s : Timed p) : Prop where
  dated : Holds (fun _ e => EntryDated p.toPolicy e) (FlightDated p.toPolicy) s.cache
  length : s.entered.length = s.cache.calls.length
  calls : ∀ (i : ℕ) call, s.cache.calls[i]? = some call →
    ∃ e, s.entered[i]? = some e ∧ e ≤ s.clock ∧ CallFine s.cache e call

/-! ## One step -/

/-- Flights keep what they promised to the calls that have entered. -/
def Advances (t : ℤ) (c c' : Cache p) : Prop :=
  ∀ (f : ℕ) x, c.heap[f]? = some x → ∃ x', c'.heap[f]? = some x' ∧
    x'.serveStale = x.serveStale ∧ x'.stale = x.stale ∧ x'.staleUntil = x.staleUntil ∧
    ∀ e ≤ t, Promise p.toPolicy x e → Promise p.toPolicy x' e

theorem CallFine.advance {t e : ℤ} {c c' : Cache p} (h : Advances t c c') (he : e ≤ t)
    {call : Call} (hcall : CallFine c e call) : CallFine c' e call := by
  cases call with
  | taking | starting | returned => exact hcall
  | joined f stale refresh =>
    obtain ⟨hstale, x, hx, hpromise, hserve⟩ := hcall
    obtain ⟨x', hx', h1, h2, h3, hkeep⟩ := h f x hx
    refine ⟨hstale, x', hx', hkeep e he hpromise, ?_⟩
    rw [h1, h2, h3]
    exact hserve
  | waiting f =>
    obtain ⟨x, hx, hpromise⟩ := hcall
    obtain ⟨x', hx', -, -, -, hkeep⟩ := h f x hx
    exact ⟨x', hx', hkeep e he hpromise⟩

theorem move_advances {c c' : Cache p} {a : Action} {t t' : ℤ}
    (hdated : Holds (fun _ e => EntryDated p.toPolicy e) (FlightDated p.toPolicy) c)
    (hmove : Move c a c') (hclock : a.Within t t') : Advances t c c' := by
  intro f x hx
  obtain ⟨x', hx', hflight⟩ := hmove.flight hx
  refine ⟨x', hx', ?_⟩
  cases hflight with
  | stay => exact ⟨rfl, rfl, rfl, fun _ _ hp => hp⟩
  | @answer answer now _ hphase =>
    refine ⟨rfl, rfl, rfl, fun e he _ => ⟨fun entry now' hc => ?_, fun hc => ?_⟩⟩
    · simp only [Flight.carries, Phase.inserting.injEq, reduceCtorEq, or_false] at hc
      obtain ⟨rfl, rfl⟩ := hc
      obtain ⟨hentry, hfresh⟩ := resolvedEntry_dated p (hdated.flights _ _ hx) answer now
      exact fine_of_answer hentry hfresh (he.trans hclock.1)
    · cases hc
  | insert hphase =>
    refine ⟨rfl, rfl, rfl, fun e _ hp => ⟨fun entry now hc => ?_, fun hc => ?_⟩⟩
    · simp only [Flight.carries, Phase.finishing.injEq, reduceCtorEq, false_or] at hc
      obtain ⟨rfl, rfl⟩ := hc
      exact hp.carried _ _ (.inl hphase)
    · cases hc
  | finish hphase =>
    refine ⟨rfl, rfl, rfl, fun e _ hp => ⟨fun entry now hc => ?_, fun _ => ?_⟩⟩
    · simp [Flight.carries, publishedFlight] at hc
    · exact hp.carried _ _ (.inr hphase)

/-- What a flight holds is still good at `e`: the last good answer of a refresh is within its
window, and an answer that was received is fresh or within its window. -/
def Flight.goodAt (p : Policy) (flight : Flight) (refresh : Bool) (e : ℤ) : Bool :=
  (refresh || !flight.serveStale || flight.stale.addrs = [] || e < flight.staleUntil) &&
    match flight.phase with
    | .inserting entry now | .finishing entry now =>
      (!servesStale p entry now || e < entry.staleUntil) &&
        (entry.result.rcode ≠ .success || e < entry.result.expiresAt ||
          (p.stalePolicy = .transient && e < entry.staleUntil))
    | .resolving | .closed => true

/-- A call that joins a registered flight finds it good at its own reading. -/
def joinsInTime (s : Timed p) : Action → Bool
  | .start i _ _ =>
    match s.cache.calls[i]?, s.entered[i]? with
    | some (.starting k _ _ _ refresh), some e =>
      ((s.cache.flights.lookup k).bind fun f => s.cache.heap[f]?).all fun flight =>
        flight.goodAt p.toPolicy refresh e
    | _, _ => true
  | _ => true

theorem goodAt_spec {p : Policy} {flight : Flight} {refresh : Bool} {e : ℤ}
    (h : flight.goodAt p refresh e = true) :
    (refresh = false → flight.serveStale = true → flight.stale.addrs ≠ [] →
      e < flight.staleUntil) ∧
    ∀ entry now, flight.carries entry now →
      (servesStale p entry now = true → e < entry.staleUntil) ∧
      (entry.result.rcode = .success → e < entry.result.expiresAt ∨
        (p.stalePolicy = .transient ∧ e < entry.staleUntil)) := by
  simp only [Flight.goodAt, Bool.and_eq_true, Bool.or_eq_true, decide_eq_true_eq,
    Bool.not_eq_true'] at h
  obtain ⟨hserve, hphase⟩ := h
  refine ⟨fun hr hs ha => ?_, fun entry now hc => ?_⟩
  · rw [hr, hs] at hserve
    simpa [ha] using hserve
  · have hboth : (servesStale p entry now = false ∨ e < entry.staleUntil) ∧
        ((entry.result.rcode ≠ .success ∨ e < entry.result.expiresAt) ∨
          (p.stalePolicy = .transient ∧ e < entry.staleUntil)) := by
      rcases hc with hc | hc <;>
        simpa only [hc, Bool.and_eq_true, Bool.or_eq_true, decide_eq_true_eq,
          Bool.not_eq_true'] using hphase
    refine ⟨fun hs => hboth.1.resolve_left (by simp [hs]), fun hpos => ?_⟩
    rcases hboth.2 with (hne | hfresh) | hstale
    · exact absurd hpos hne
    · exact .inl hfresh
    · exact .inr hstale

section
variable {s : Timed p} {c' : Cache p} {t' : ℤ} (h : Bounded s)
  (hdated : Holds (fun _ e => EntryDated p.toPolicy e) (FlightDated p.toPolicy) c')
  (hadv : Advances s.clock s.cache c') (hle : s.clock ≤ t')
include h hdated hadv hle

theorem Bounded.sameCalls (hcalls : c'.calls = s.cache.calls) :
    Bounded ⟨c', t', s.entered ++ []⟩ := by
  rw [List.append_nil]
  refine ⟨hdated, by rw [h.length, hcalls], fun j call hj => ?_⟩
  obtain ⟨e, he, het, hfine⟩ := h.calls j call (hcalls ▸ hj)
  exact ⟨e, he, het.trans hle, hfine.advance hadv het⟩

theorem Bounded.setCall {i : ℕ} {call call' : Call} (hcall : s.cache.calls[i]? = some call)
    (hcalls : c'.calls = s.cache.calls.set i call')
    (hnew : ∀ e, s.entered[i]? = some e → e ≤ s.clock → CallFine s.cache e call →
      CallFine c' e call') : Bounded ⟨c', t', s.entered ++ []⟩ := by
  rw [List.append_nil]
  refine ⟨hdated, by rw [h.length, hcalls, List.length_set], fun j call'' hj => ?_⟩
  simp only [hcalls] at hj
  rw [getElem?_replaced hcall] at hj
  split at hj
  · rename_i hij
    subst hij
    cases hj
    obtain ⟨e, he, het, hfine⟩ := h.calls i call hcall
    exact ⟨e, he, het.trans hle, hnew e he het hfine⟩
  · obtain ⟨e, he, het, hfine⟩ := h.calls j call'' hj
    exact ⟨e, he, het.trans hle, hfine.advance hadv het⟩

theorem Bounded.spawn {call : Call} {now : ℤ} (hcalls : c'.calls = s.cache.calls ++ [call])
    (hnow : now ≤ t') (hnew : CallFine c' now call) : Bounded ⟨c', t', s.entered ++ [now]⟩ := by
  refine ⟨hdated, by simp [h.length, hcalls], fun j call'' hj => ?_⟩
  simp only [hcalls] at hj
  rcases getElem?_appended hj with hj | ⟨rfl, rfl⟩
  · obtain ⟨e, he, het, hfine⟩ := h.calls j call'' hj
    have hlt : j < s.entered.length := (List.getElem?_eq_some_iff.mp he).1
    exact ⟨e, by rw [List.getElem?_append_left hlt, he], het.trans hle, hfine.advance hadv het⟩
  · exact ⟨now, by simp [← h.length], hnow, hnew⟩

end

/-- The entry that a call took leaves it in good standing. -/
theorem Taken.fine {k : Key} {q : Query} {now : ℤ} {entry : CacheEntry} {found : Bool}
    {call : Call} (h : Taken p.toPolicy k q now entry found call)
    (hentry : entry = {} ∨ EntryDated p.toPolicy entry)
    (hfound : found = true → now < entry.result.expiresAt) (c : Cache p) :
    CallFine c now call := by
  cases h with
  | hit _ | negative _ =>
    intro _ _ hexp
    have := hfound rfl
    omega
  | stale _ hserve =>
    rcases hentry with rfl | hentry
    · simp [canServeStale] at hserve
    · exact fine_of_stale hentry hserve le_rfl
  | failed hrcode =>
    intro _ hpos _
    rw [hrcode] at hpos
    cases hpos
  | expired hrcode _ =>
    rcases hentry with rfl | hentry
    · exact ⟨fun hn => absurd rfl hn, by simp⟩
    · exact ⟨fun _ => hentry.result hrcode, by simp⟩
  | refresh _ hserve =>
    rcases hentry with rfl | hentry
    · simp [canServeStale] at hserve
    · exact ⟨hentry.stale, fun _ => canServeStale_iff.mp hserve⟩
  | miss => exact ⟨fun hn => absurd rfl hn, by simp⟩

theorem Bounded.step {s : Timed p} {a : Action} {c' : Cache p} {t' : ℤ} (h : Bounded s)
    (hboard : Board s.cache) (hjoin : joinsInTime s a = true) (hstep : s.cache.step a = some c')
    (hclock : a.Within s.clock t') : Bounded ⟨c', t', s.entered ++ a.entry⟩ := by
  have hmove := step_move hstep
  have hle := hclock.le
  have hdated : Holds (fun _ e => EntryDated p.toPolicy e) (FlightDated p.toPolicy) c' := by
    refine h.dated.move (dated_closed p) hmove (fun i k q stale staleUntil refresh _ _ _ hcall _ => ?_)
      fun f flight answer now _ _ _ _ hf => ⟨hf.stale, hf.serve, fun entry now' hc => ?_⟩
    · obtain ⟨e, -, -, hdate, hrefresh⟩ := h.calls i _ hcall
      exact ⟨hdate, fun hr => (hrefresh hr).1, fun entry now hc => by simp [Flight.carries] at hc⟩
    · simp only [Flight.carries, Phase.inserting.injEq, reduceCtorEq, or_false] at hc
      rw [← hc.1, ← hc.2]
      exact resolvedEntry_dated p hf answer now
  have hadv := move_advances h.dated hmove hclock
  cases hmove with
  | answer | insert | finish | ignore | invalidate => exact h.sameCalls hdated hadv hle rfl
  | refuse herr => exact h.spawn hdated hadv hle rfl hclock.2 (fun hn => by cases hn)
  | enter hkey => exact h.spawn hdated hadv hle rfl hclock.2 rfl
  | @take i k q now w entry found m call hcall htake hm hout =>
    refine h.setCall hdated hadv hle hcall rfl fun e he het hfine => ?_
    have hnow : now = e := hfine
    subst hnow
    rcases takeEntry_spec htake with ⟨hfound, hempty⟩ | ⟨hcached, hfresh⟩
    · exact hout.fine (.inl hempty) (by simp [hfound]) _
    · exact hout.fine (.inr (h.dated.cached _ _ hcached)) hfresh.mp _
  | @join i f k q stale staleUntil now now' refresh hcall hflight =>
    refine h.setCall hdated hadv hle hcall rfl fun e he het hfine => ?_
    obtain ⟨hdate, hrefresh⟩ := hfine
    obtain ⟨x, hx, -, hphase⟩ := (hboard.live _ _).mp hflight
    simp only [joinsInTime, hcall, he, hflight, hx, Option.bind_some, Option.all_some] at hjoin
    obtain ⟨hserve, hcarried⟩ := goodAt_spec hjoin
    refine ⟨fun hr => ?_, x, hx, ⟨fun entry now hc => ?_, fun hc => absurd hc hphase⟩, hserve⟩
    · obtain ⟨hpolicy, haddrs, huntil⟩ := hrefresh hr
      rw [hdate haddrs] at huntil
      exact ⟨hpolicy, huntil⟩
    · exact fine_of_join ((h.dated.flights _ _ hx).carried entry now hc).1 (hcarried entry now hc)
  | fresh hcall hflight hcached hfresh =>
    refine h.setCall hdated hadv hle hcall rfl fun e he het hfine => ?_
    obtain ⟨hdate, hrefresh⟩ := hfine
    obtain ⟨hnow, hnow', -⟩ := hclock
    refine ⟨fun hr => ?_, _, List.getElem?_concat_length, ⟨fun entry now hc => ?_, fun _ => ?_⟩,
      fun _ hs => ?_⟩
    · obtain ⟨hpolicy, haddrs, huntil⟩ := hrefresh hr
      rw [hdate haddrs] at huntil
      exact ⟨hpolicy, huntil⟩
    · simp [Flight.carries, freshFlight_phase] at hc
    · exact fine_of_fresh (h.dated.cached _ _ hcached) hfresh (het.trans hnow) hnow'
    · rw [freshFlight_serveStale] at hs
      cases hs
  | reject hcall hflight hfull hm =>
    exact h.setCall hdated hadv hle hcall rfl fun e he het hfine hn => by cases hn
  | launch hcall hflight hexpired hroom =>
    refine h.setCall hdated hadv hle hcall rfl fun e he het hfine => ?_
    obtain ⟨hdate, hrefresh⟩ := hfine
    refine ⟨fun hr => ?_, _, List.getElem?_concat_length, ⟨fun entry now hc => ?_, fun hc => ?_⟩,
      fun hr hs => ?_⟩
    · obtain ⟨hpolicy, haddrs, huntil⟩ := hrefresh hr
      rw [hdate haddrs] at huntil
      exact ⟨hpolicy, huntil⟩
    · simp [Flight.carries] at hc
    · cases hc
    · rw [hr] at hs
      cases hs
  | ready hcall hheap hphase =>
    refine h.setCall hdated hadv hle hcall rfl fun e he het hfine => ?_
    obtain ⟨-, x, hx, hpromise, -⟩ := hfine
    rw [hheap] at hx
    cases hx
    exact hpromise.closed hphase
  | refresh hcall hheap hphase hm =>
    refine h.setCall hdated hadv hle hcall rfl fun e he het hfine => ?_
    exact fun _ _ _ => hfine.1 rfl
  | serve hcall hheap hphase hserve haddrs hm =>
    refine h.setCall hdated hadv hle hcall rfl fun e he het hfine => ?_
    obtain ⟨-, x, hx, -, huntil⟩ := hfine
    rw [hheap] at hx
    cases hx
    have hx := h.dated.flights _ _ hheap
    have hlt := huntil rfl hserve haddrs
    rw [hx.stale haddrs] at hlt
    exact fun _ _ _ => ⟨hx.serve hserve, hlt⟩
  | wait hcall hheap hphase =>
    refine h.setCall hdated hadv hle hcall rfl fun e he het hfine => ?_
    obtain ⟨-, x, hx, hpromise, -⟩ := hfine
    exact ⟨x, hx, hpromise⟩
  | receive hcall hheap hphase =>
    refine h.setCall hdated hadv hle hcall rfl fun e he het hfine => ?_
    obtain ⟨x, hx, hpromise⟩ := hfine
    rw [hheap] at hx
    cases hx
    exact hpromise.closed hphase
  | cancel hcall =>
    exact h.setCall hdated hadv hle hcall rfl fun e he het hfine hn => by cases hn

theorem Timed.Reachable.bounded {s : Timed p} (h : Timed.Reachable joinsInTime s) : Bounded s := by
  induction h with
  | new t => exact ⟨⟨fun k e he => by simp [Cache.cached, newCache] at he, fun f x hx => by cases hx⟩,
      rfl, fun i call hi => by cases hi⟩
  | step hs hjoin hstep ih =>
    obtain ⟨c', hc', hclock, rfl⟩ := Timed.step_eq_some hstep
    exact ih.step hs.cache.board hjoin hc' hclock

/-- When every call joins in time, an answer that had expired when the call entered is a last good
answer, served under the transient policy and within its window. -/
theorem stale_bounded {s : Timed p} (h : Timed.Reachable joinsInTime s) {i : ℕ} {r : Result}
    {e : ℤ} (hcall : s.cache.calls[i]? = some (.returned r none)) (he : s.entered[i]? = some e)
    (hpos : r.rcode = .success) (hexp : r.expiresAt ≤ e) :
    p.stalePolicy = .transient ∧ e < r.expiresAt + p.staleWindow := by
  obtain ⟨e', he', -, hfine⟩ := h.bounded.calls i _ hcall
  rw [he] at he'
  cases he'
  exact hfine rfl hpos hexp

/-! ## Runs -/

/-- Actions that all fall on one time. -/
def atTime (t : ℤ) (actions : List Action) : List (Action × ℤ) := actions.map fun a => (a, t)

def goodAnswer : Answer := .returned { addrs := [.v4 0xc000020a], expiresAt := 105 } none

/-- A good answer that expires at 105, then a failure that the last good answer covers. -/
def failingRefresh : List (Action × ℤ) :=
  atTime 100 (enterAndStart (queryFor "a.example") 0 100 ++
    [.answer 0 goodAnswer 100 1, .insert 0 [] [], .finish 0, .check 0]) ++
  atTime 110 (enterAndStart (queryFor "a.example") 1 110 ++ [.check 1]) ++
  atTime 111 [.answer 1 (.returned {} (some "timeout")) 111 1, .insert 1 [] [], .finish 1,
    .receive 1]

def lastGood : Result := { addrs := [.v4 0xc000020a], expiresAt := 105 }

theorem stale_bounded_served : ∃ s : Timed smallPolicy, Timed.Reachable joinsInTime s ∧
    s.cache.calls[1]? = some (.returned lastGood none) ∧ s.entered[1]? = some 110 ∧
    lastGood.expiresAt ≤ 110 ∧ 110 < lastGood.expiresAt + smallPolicy.staleWindow := by
  have hrun : ((Timed.run joinsInTime ⟨newCache smallPolicy, 100, []⟩ failingRefresh).map fun s =>
      (s.cache.calls[1]?, s.entered[1]?)) = some (some (.returned lastGood none), some 110) := by
    decide +kernel
  obtain ⟨s, hs, hm⟩ := Option.map_eq_some_iff.mp hrun
  obtain ⟨hcall, he⟩ := Prod.mk.inj hm
  have hreach := (Timed.Reachable.new 100).run hs
  exact ⟨s, hreach, hcall, he, by decide,
    (stale_bounded hreach hcall he rfl (by decide)).2⟩

def strictPolicy : ValidPolicy :=
  { smallPolicy.toPolicy with stalePolicy := .never, valid := rfl }

/-- A refresh that started within the window serves its last good answer after the window has
closed. And under a policy without stale answers, a flight that was answered before a call
entered gives it an answer that had expired by then. -/
theorem stale_unbounded :
    (∃ s : Timed smallPolicy, Timed.Reachable (fun _ _ => true) s ∧
      s.cache.calls[3]? = some (.returned lastGood none) ∧ s.entered[3]? = some 136 ∧
      lastGood.rcode = .success ∧ lastGood.expiresAt ≤ 136 ∧
      ¬ 136 < lastGood.expiresAt + smallPolicy.staleWindow) ∧
    ∃ s : Timed strictPolicy, Timed.Reachable (fun _ _ => true) s ∧
      s.cache.calls[1]? = some (.returned lastGood none) ∧ s.entered[1]? = some 120 ∧
      lastGood.rcode = .success ∧ lastGood.expiresAt ≤ 120 ∧ strictPolicy.stalePolicy = .never := by
  constructor
  · have hrun : ((Timed.run (fun _ _ => true) ⟨newCache smallPolicy, 100, []⟩ (failingRefresh ++
        atTime 133 (enterAndStart (queryFor "a.example") 2 133 ++ [.check 2]) ++
        atTime 136 (enterAndStart (queryFor "a.example") 3 136 ++ [.check 3]))).map fun s =>
          (s.cache.calls[3]?, s.entered[3]?)) = some (some (.returned lastGood none), some 136) := by
      decide +kernel
    obtain ⟨s, hs, hm⟩ := Option.map_eq_some_iff.mp hrun
    obtain ⟨hcall, he⟩ := Prod.mk.inj hm
    exact ⟨s, (Timed.Reachable.new 100).run hs, hcall, he, rfl, by decide, by decide⟩
  · have hrun : ((Timed.run (fun _ _ => true) ⟨newCache strictPolicy, 100, []⟩
        (atTime 100 (enterAndStart (queryFor "a.example") 0 100 ++ [.answer 0 goodAnswer 100 1]) ++
        atTime 120 (enterAndStart (queryFor "a.example") 1 120 ++
          [.check 1, .insert 0 [] [], .finish 0, .receive 1]))).map fun s =>
          (s.cache.calls[1]?, s.entered[1]?)) = some (some (.returned lastGood none), some 120) := by
      decide +kernel
    obtain ⟨s, hs, hm⟩ := Option.map_eq_some_iff.mp hrun
    obtain ⟨hcall, he⟩ := Prod.mk.inj hm
    exact ⟨s, (Timed.Reachable.new 100).run hs, hcall, he, rfl, by decide, rfl⟩

end SakhtarWg.Dns
