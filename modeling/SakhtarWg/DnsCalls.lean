import SakhtarWg.DnsFlights

/-!
# One call and one flight in an interleaving

A section moves at most one call and at most one flight. Seen from a call or a flight,
a step of the cache is one of a few moves of its own or leaves it where it is.
-/

namespace SakhtarWg.Dns
open Netip

variable {p : ValidPolicy}

/-! ## A flight -/

/-- How a section moves the flight `f`. -/
inductive FlightMove (p : Policy) (f : ℕ) (x : Flight) : Action → Flight → Prop
  | stay {a : Action} : FlightMove p f x a x
  | answer {answer : Answer} {now elapsed : ℤ} (hphase : x.phase = .resolving) :
      FlightMove p f x (.answer f answer now elapsed)
        { x with phase := .inserting (resolvedEntry p x answer now) now }
  | insert {entry : CacheEntry} {now : ℤ} {sweep victims : List Key}
      (hphase : x.phase = .inserting entry now) :
      FlightMove p f x (.insert f sweep victims) { x with phase := .finishing entry now }
  | finish {entry : CacheEntry} {now : ℤ} (hphase : x.phase = .finishing entry now) :
      FlightMove p f x (.finish f) (publishedFlight p x entry now)

theorem Move.flight {c c' : Cache p} {a : Action} (hmove : Move c a c') {f : ℕ} {x : Flight}
    (hf : c.heap[f]? = some x) :
    ∃ x', c'.heap[f]? = some x' ∧ FlightMove p.toPolicy f x a x' := by
  -- a section that replaces the flight `g` moves `f` only when the two are the same
  have hset : ∀ {g : ℕ} {y y' : Flight}, c.heap[g]? = some y →
      FlightMove p.toPolicy g y a y' →
      ∃ x', (c.heap.set g y')[f]? = some x' ∧ FlightMove p.toPolicy f x a x' := by
    intro g y y' hg hflight
    rw [getElem?_replaced hg]
    by_cases hgf : g = f
    · subst hgf
      rw [hf] at hg
      cases hg
      exact ⟨y', if_pos rfl, hflight⟩
    · exact ⟨x, by rw [if_neg hgf, hf], .stay⟩
  cases hmove with
  | refuse | enter | take | join | reject | ready | refresh | serve | wait | receive | cancel
  | ignore | invalidate => exact ⟨x, hf, .stay⟩
  | fresh | launch =>
    have hlt : f < c.heap.length := (List.getElem?_eq_some_iff.mp hf).1
    exact ⟨x, (List.getElem?_append_left hlt).trans hf, .stay⟩
  | answer hheap hphase hm => exact hset hheap (.answer hphase)
  | insert hheap hphase => exact hset hheap (.insert hphase)
  | finish hheap hphase hm => exact hset hheap (.finish hphase)

/-! ## A call -/

/-- How a section moves the call `i`. -/
inductive CallMove (c c' : Cache p) (i : ℕ) : Action → Call → Call → Prop
  | stay {a : Action} {call : Call} : CallMove c c' i a call call
  | take {k : Key} {q : Query} {now : ℤ} {w : Locked} {entry : CacheEntry} {found : Bool}
      {call : Call} (htake : (c.lock k).takeEntry p.toPolicy k now = (w, entry, found))
      (hout : Taken p.toPolicy k q now entry found call) :
      CallMove c c' i (.take i) (.taking k q now) call
  | join {f : ℕ} {k : Key} {q : Query} {stale : Result} {staleUntil now now' : ℤ}
      {refresh : Bool} (hflight : c.flights.lookup k = some f) :
      CallMove c c' i (.start i now now') (.starting k q stale staleUntil refresh)
        (.joined f stale refresh)
  | fresh {k : Key} {q : Query} {stale : Result} {staleUntil now now' : ℤ} {refresh : Bool}
      {entry : CacheEntry} (hcached : c.cached k = some entry)
      (hheap : c'.heap[c.heap.length]? = some (freshFlight p.toPolicy k q entry now')) :
      CallMove c c' i (.start i now now') (.starting k q stale staleUntil refresh)
        (.joined c.heap.length stale refresh)
  | reject {k : Key} {q : Query} {stale : Result} {staleUntil now now' : ℤ} {refresh : Bool} :
      CallMove c c' i (.start i now now') (.starting k q stale staleUntil refresh)
        (.returned {} (some .pendingLimit))
  | launch {k : Key} {q : Query} {stale : Result} {staleUntil now now' : ℤ} {refresh : Bool}
      (hflight : c.flights.lookup k = none)
      (hheap : c'.heap[c.heap.length]? =
        some ⟨k, q, stale, staleUntil, refresh, .resolving, {}, none⟩) :
      CallMove c c' i (.start i now now') (.starting k q stale staleUntil refresh)
        (.joined c.heap.length stale refresh)
  | ready {f : ℕ} {stale : Result} {refresh : Bool} {flight : Flight}
      (hheap : c.heap[f]? = some flight) (hphase : flight.phase = .closed) :
      CallMove c c' i (.check i) (.joined f stale refresh) (.returned flight.result flight.err)
  | refresh {f : ℕ} {stale : Result} :
      CallMove c c' i (.check i) (.joined f stale true) (.returned stale none)
  | serve {f : ℕ} {stale : Result} {flight : Flight} (hheap : c.heap[f]? = some flight)
      (hserve : flight.serveStale = true) (haddrs : flight.stale.addrs ≠ []) :
      CallMove c c' i (.check i) (.joined f stale false) (.returned flight.stale none)
  | wait {f : ℕ} {stale : Result} :
      CallMove c c' i (.check i) (.joined f stale false) (.waiting f)
  | receive {f : ℕ} {flight : Flight} (hheap : c.heap[f]? = some flight)
      (hphase : flight.phase = .closed) :
      CallMove c c' i (.receive i) (.waiting f) (.returned flight.result flight.err)
  | cancel {f : ℕ} {reason : String} :
      CallMove c c' i (.cancel i reason) (.waiting f) (.returned {} (some (.context reason)))

theorem Move.call {c c' : Cache p} {a : Action} (hmove : Move c a c') {i : ℕ} {call : Call}
    (hi : c.calls[i]? = some call) :
    ∃ call', c'.calls[i]? = some call' ∧ CallMove c c' i a call call' := by
  -- a section that moves the call `j` moves `i` only when the two are the same
  have hset : ∀ {j : ℕ} {old new : Call}, c.calls[j]? = some old →
      CallMove c c' j a old new →
      ∃ call', (c.calls.set j new)[i]? = some call' ∧ CallMove c c' i a call call' := by
    intro j old new hj hcall
    rw [getElem?_replaced hj]
    by_cases hji : j = i
    · subst hji
      rw [hi] at hj
      cases hj
      exact ⟨new, if_pos rfl, hcall⟩
    · exact ⟨call, by rw [if_neg hji, hi], .stay⟩
  cases hmove with
  | answer | insert | finish | ignore | invalidate => exact ⟨call, hi, .stay⟩
  | refuse | enter =>
    have hlt : i < c.calls.length := (List.getElem?_eq_some_iff.mp hi).1
    exact ⟨call, (List.getElem?_append_left hlt).trans hi, .stay⟩
  | take hcall htake hm hout => exact hset hcall (.take htake hout)
  | join hcall hflight => exact hset hcall (.join hflight)
  | fresh hcall hflight hcached =>
    exact hset hcall (.fresh hcached List.getElem?_concat_length)
  | reject hcall => exact hset hcall .reject
  | launch hcall hflight => exact hset hcall (.launch hflight List.getElem?_concat_length)
  | ready hcall hheap hphase => exact hset hcall (.ready hheap hphase)
  | refresh hcall hheap hphase => exact hset hcall .refresh
  | serve hcall hheap hphase hserve haddrs => exact hset hcall (.serve hheap hserve haddrs)
  | wait hcall => exact hset hcall .wait
  | receive hcall hheap hphase => exact hset hcall (.receive hheap hphase)
  | cancel hcall => exact hset hcall .cancel

/-- A call is one that was there before, or it has just entered. -/
theorem Move.call_of {c c' : Cache p} {a : Action} (hmove : Move c a c') {i : ℕ} {call' : Call}
    (hi : c'.calls[i]? = some call') :
    (∃ call, c.calls[i]? = some call ∧ CallMove c c' i a call call') ∨
      (i = c.calls.length ∧ ((∃ e, call' = .returned {} (some e)) ∨
        ∃ k q now, call' = .taking k q now)) := by
  cases hold : c.calls[i]? with
  | some call =>
    obtain ⟨call'', hi', hcall⟩ := hmove.call hold
    rw [hi] at hi'
    cases hi'
    exact .inl ⟨call, rfl, hcall⟩
  | none =>
    have hge : c.calls.length ≤ i := List.getElem?_eq_none_iff.mp hold
    have hset : ∀ {j : ℕ} {call : Call}, (c.calls.set j call)[i]? ≠ some call' := by
      intro j call hj
      rw [List.getElem?_eq_none (by simpa using hge)] at hj
      cases hj
    have hnew : ∀ {call : Call}, (c.calls ++ [call])[i]? = some call' →
        i = c.calls.length ∧ call' = call := by
      intro call hj
      rcases getElem?_appended hj with hj | hj
      · rw [hold] at hj
        cases hj
      · exact hj
    cases hmove with
    | refuse herr =>
      obtain ⟨hlen, hcall⟩ := hnew hi
      exact .inr ⟨hlen, .inl ⟨_, hcall⟩⟩
    | enter hkey =>
      obtain ⟨hlen, hcall⟩ := hnew hi
      exact .inr ⟨hlen, .inr ⟨_, _, _, hcall⟩⟩
    | answer | insert | finish | ignore | invalidate =>
      have : c.calls[i]? = some call' := hi
      rw [hold] at this
      cases this
    | take | join | fresh | reject | launch | ready | refresh | serve | wait | receive
    | cancel => exact absurd hi hset

end SakhtarWg.Dns
