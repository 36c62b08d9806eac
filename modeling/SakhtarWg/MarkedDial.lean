import SakhtarWg.DialSafety
import SakhtarWg.TunnelResolver

/-!
# Marked sockets

Policy rules, table routes and the guard exist for IPv4 only, so a marked socket
must name an IPv4 literal. Backends, literals and fetched names are filtered; the
servers of the tunnel resolvers are taken as configured.
-/

namespace SakhtarWg
open Text Netip Program Proxy

/-- The address is `host:port` with an IPv4 literal, possibly mapped. -/
def IsIPv4Target (address : String) : Prop :=
  ∃ host port a, splitHostPort address = some (host, port) ∧ parseAddr host = some a ∧
    a.unmap.is4 = true

instance (address : String) : Decidable (IsIPv4Target address) :=
  decidable_of_iff ((splitHostPort address).any fun parts =>
    (parseAddr parts.1).any fun a => a.unmap.is4) (by
      simp [IsIPv4Target, Option.any_eq_true])

/-- A dial with a mark names an IPv4 literal. -/
def MarkedIPv4 : Env → Prop
  | .dial mark address _ => mark ≠ 0 → IsIPv4Target address
  | _ => True

theorem dialsOf_markedIPv4 {t : Trace} :
    (∀ e ∈ t, MarkedIPv4 e.1) ↔ ∀ d ∈ dialsOf t, d.1 ≠ 0 → IsIPv4Target d.2 := by
  simp only [dialsOf, List.mem_filterMap]
  constructor
  · rintro h d ⟨⟨e, r⟩, he, hd⟩
    have := h _ he
    cases e with
    | dial mark address deadline =>
      cases hd
      exact this
    | _ => cases hd
  · rintro h ⟨e, r⟩ he
    cases e with
    | dial mark address deadline => exact h (mark, address) ⟨_, he, rfl⟩
    | _ => trivial

theorem isIPv4Target_join {a : Addr} (h4 : a.is4 = true) {port : String}
    (hport : ':' ∉ port.toList ∧ '[' ∉ port.toList ∧ ']' ∉ port.toList) :
    IsIPv4Target (joinHostPort a.string port) := by
  cases a with
  | zero => cases h4
  | v6 _ _ => cases h4
  | v4 v => exact ⟨formatIPv4 v, port, .v4 v, splitHostPort_join v hport, parseAddr_formatIPv4 v, rfl⟩

/-! ## The activities that stamp marks -/

/-- A trace of a proxied connection, of a lookup through a tunnel, or of a client of a route
source or probe. -/
inductive Activity (c : Config) : Trace → Prop
  | proxy (deadline : Option ℤ) (host : String) (isIP : Bool) {port : String} (marks : List ℤ)
      (self : List Addr) {t : Trace} {r : Except Err Unit} (hport : port = "443" ∨ port = "80")
      (hrun : (dialEgresses c.router deadline host isIP port marks self).Runs t r) : Activity c t
  | lookup {tunnel : Tunnel} (htunnel : tunnel ∈ c.tunnels) (deadline : Option ℤ) (host : String)
      {t : Trace} {r : Except (List (LookupError ⊕ Err)) (List Addr)}
      (hrun : ((c.tunnelResolver tunnel.fwmark).lookupNetIP deadline .ip host).Runs t r) :
      Activity c t
  | client (via : String) (deadline : Option ℤ) (addr : String) {t : Trace} {r : Except Err Unit}
      (hrun : (c.dialVia via deadline addr).Runs t r) : Activity c t

/-- Every server the tunnels' resolvers ask is an IPv4 literal. -/
def Config.IPv4Resolvers (c : Config) : Prop :=
  ∀ tunnel ∈ c.tunnels, ∀ server ∈ c.resolversFor tunnel.fwmark, IsIPv4Target server

/-! ## The proxy -/

theorem Segmented.markedIPv4 {rt : Router} {self : List Addr} {port : String} {marks : List ℤ}
    {t : Trace} (hport : ':' ∉ port.toList ∧ '[' ∉ port.toList ∧ ']' ∉ port.toList)
    (h : Segmented rt self port marks t) : ∀ d ∈ dialsOf t, d.1 ≠ 0 → IsIPv4Target d.2 := by
  obtain ⟨segments, rfl, hlen, hall⟩ := h
  induction segments generalizing marks with
  | nil => simp [dialsOf]
  | cons segment segments ih =>
    cases marks with
    | nil => simp at hlen
    | cons mark marks =>
      intro d hd hmark
      rw [List.flatten_cons, dialsOf_append, List.mem_append] at hd
      rcases hd with hd | hd
      · obtain ⟨addrs, haddrs, -, -, hdialable⟩ := hall (mark, segment) (by simp)
        rw [haddrs] at hd
        obtain ⟨a, ha, rfl⟩ := List.mem_map.mp hd
        obtain ⟨-, -, -, -, hipv4⟩ := hdialable a ha
        exact isIPv4Target_join (hipv4 hmark) hport
      · exact ih (by simpa using hlen) (fun x hx => hall x (by simp [hx])) d hd hmark

/-! ## The resolver -/

/-- What a lookup may return for the network it asked for. -/
def Fits {ε : Type} (network : LookupNetwork) (result : Except ε (List Addr)) : Prop :=
  ∀ addrs, result = .ok addrs → network = .ip4 → ∀ a ∈ addrs, a.unmap.is4 = true

theorem Fits.error {ε : Type} {network : LookupNetwork} (e : ε) : Fits network (.error e) := by
  intro addrs h
  cases h

theorem getCtxErr_safe (deadline : Option ℤ) :
    Prog.Safe MarkedIPv4 (Env.getCtxErr deadline) fun _ => True :=
  Prog.Safe.perform trivial

theorem getNow_safe : Prog.Safe MarkedIPv4 Env.getNow fun _ => True := Prog.Safe.perform trivial

theorem attemptDeadline_safe (deadline : Option ℤ) (n : ℕ) :
    Prog.Safe MarkedIPv4 (attemptDeadline deadline n) fun _ => True := by
  unfold attemptDeadline
  split
  · exact Prog.Safe.pure trivial
  · exact getNow_safe.bind fun _ _ => getNow_safe.bind fun _ _ => Prog.Safe.pure trivial

theorem withTimeout_safe (deadline : Option ℤ) (timeout : ℤ) :
    Prog.Safe MarkedIPv4 (withTimeout deadline timeout) fun _ => True :=
  getNow_safe.bind fun _ _ => Prog.Safe.pure trivial

section
variable (r : TunnelResolver) (network : LookupNetwork) (host : String)

section
variable {server : String} (hserver : r.mark ≠ 0 → IsIPv4Target server)
include hserver

theorem dialServer_safe (deadline : Option ℤ) (n : ℕ) :
    Prog.Safe MarkedIPv4 (r.dialServer server deadline n) fun _ => True := by
  induction n with
  | zero => exact Prog.Safe.pure trivial
  | succ n ih => exact Prog.Safe.bind (Prog.Safe.perform hserver) fun _ _ => ih

theorem exchange_safe (tcp : Bool) (deadline : Option ℤ) :
    Prog.Safe MarkedIPv4 (r.exchange server tcp deadline network host) (Fits network) := by
  refine Prog.Safe.bind (Prog.Safe.perform trivial) fun n _ => ?_
  refine (dialServer_safe r hserver deadline n).bind fun _ _ => ?_
  refine Prog.Safe.bind (Prog.Safe.perform trivial) fun answer _ => ?_
  cases answer with
  | error e => exact Prog.Safe.pure (Fits.error e)
  | ok addrs =>
    refine Prog.Safe.pure fun l hl hnet => ?_
    cases hl
    exact addrs.2 hnet

theorem lookupServer_safe (deadline : Option ℤ) :
    Prog.Safe MarkedIPv4 (r.lookupServer deadline server network host) (Fits network) := by
  refine (attemptDeadline_safe deadline 2).bind fun udp _ => ?_
  refine (exchange_safe r network host hserver false udp).bind fun first hfirst => ?_
  split
  · refine (getCtxErr_safe deadline).bind fun stop _ => ?_
    cases stop with
    | some e => exact Prog.Safe.pure hfirst
    | none =>
      refine (exchange_safe r network host hserver true deadline).bind fun second hsecond => ?_
      cases second with
      | ok addrs => exact Prog.Safe.pure hsecond
      | error e =>
        cases first with
        | ok addrs => exact Prog.Safe.pure hfirst
        | error _ => exact Prog.Safe.pure (Fits.error e)
  · exact Prog.Safe.pure hfirst

end

theorem lookupFrom_safe (deadline : Option ℤ) {servers : List String}
    (hservers : ∀ server ∈ servers, r.mark ≠ 0 → IsIPv4Target server)
    (errs : List (LookupError ⊕ Err)) {poisoned : List Addr}
    (hpoisoned : network = .ip4 → ∀ a ∈ poisoned, a.unmap.is4 = true) :
    Prog.Safe MarkedIPv4 (r.lookupFrom deadline network host servers errs poisoned)
      (Fits network) := by
  have hconclude : ∀ errs (poisoned : List Addr),
      (network = .ip4 → ∀ a ∈ poisoned, a.unmap.is4 = true) →
      Fits network (TunnelResolver.lookupFrom.conclude errs poisoned) := by
    intro errs poisoned h addrs hok
    unfold TunnelResolver.lookupFrom.conclude at hok
    split at hok
    · cases hok
      exact h
    · cases hok
  induction servers generalizing errs poisoned with
  | nil => exact Prog.Safe.pure (hconclude errs poisoned hpoisoned)
  | cons server rest ih =>
    have hrest := fun server h => hservers server (List.mem_cons_of_mem _ h)
    refine (getCtxErr_safe deadline).bind fun stop _ => ?_
    cases stop with
    | some e => exact Prog.Safe.pure (hconclude _ _ hpoisoned)
    | none =>
      refine (attemptDeadline_safe deadline _).bind fun slice _ => ?_
      refine (lookupServer_safe r network host (hservers server List.mem_cons_self) slice).bind
        fun result hresult => ?_
      cases result with
      | ok addrs =>
        dsimp only
        split
        · exact Prog.Safe.pure fun l hl => by
            cases hl
            exact hresult addrs rfl
        · exact ih hrest errs (hresult addrs rfl)
      | error e =>
        dsimp only
        split
        · exact Prog.Safe.pure (Fits.error _)
        · exact ih hrest _ hpoisoned

/-- With IPv4 servers a lookup dials IPv4 only, and asks for IPv4 only. -/
theorem lookupNetIP_safe (deadline : Option ℤ)
    (hservers : ∀ server ∈ r.servers, r.mark ≠ 0 → IsIPv4Target server) :
    Prog.Safe MarkedIPv4 (r.lookupNetIP deadline network host)
      (Fits (TunnelResolver.ip4Only network)) := by
  refine (withTimeout_safe deadline r.timeout).bind fun deadline _ => ?_
  exact lookupFrom_safe r _ host deadline hservers [] (by simp)

end

/-! ## The client -/

theorem markFor_ne_zero {c : Config} {via : String} (h : c.markFor via ≠ 0) :
    ∃ t ∈ c.tunnels, t.fwmark = c.markFor via := by
  unfold Config.markFor at h ⊢
  split at h
  · exact absurd rfl h
  · rename_i hvia
    rw [if_neg hvia]
    split at h
    · rename_i t ht
      exact ⟨t, List.mem_of_find?_eq_some ht, rfl⟩
    · exact absurd rfl h

theorem dialEach_safe {deadline : Option ℤ} {port egress : String} {metrics : Bool} {mark : ℤ}
    (hport : ':' ∉ port.toList ∧ '[' ∉ port.toList ∧ ']' ∉ port.toList) {candidates : List Addr}
    (h4 : ∀ a ∈ candidates, a.is4 = true) (errs : List Err) :
    Prog.Safe MarkedIPv4 (dialEach deadline port metrics egress mark candidates errs)
      fun _ => True := by
  intro t r hrun
  obtain ⟨n, hn⟩ := dialEach_runs hrun
  refine ⟨dialsOf_markedIPv4.mpr fun d hd _ => ?_, trivial⟩
  rw [hn] at hd
  obtain ⟨a, ha, rfl⟩ := List.mem_map.mp hd
  exact isIPv4Target_join (h4 a (List.mem_of_mem_take ha)) hport

theorem select_safe {rt : Router} {input : List Addr} {mark : ℤ} {self : List Addr}
    (hfamily : ∀ a ∈ input, egressFamilyAllowed a mark = true) :
    Prog.Safe MarkedIPv4 (rt.select input mark self)
      fun selected => ∀ a ∈ selected, Dialable rt self mark a := by
  intro t selected hrun
  refine ⟨dialsOf_markedIPv4.mpr ?_, (select_dialable hrun hfamily).2⟩
  rw [select_quiet _ _ _ _ t _ hrun]
  simp

theorem dialVia_safe {c : Config} (h : c.IPv4Resolvers) (via : String) (deadline : Option ℤ)
    (addr : String) : Prog.Safe MarkedIPv4 (c.dialVia via deadline addr) fun _ => True := by
  unfold Config.dialVia
  dsimp only
  split
  · exact Prog.Safe.perform fun h => absurd rfl h
  · rename_i hmark
    split
    · exact Prog.Safe.pure trivial
    · rename_i host port hsplit
      split
      · rename_i parsed hparsed
        split
        · exact Prog.Safe.pure trivial
        · rename_i hfamily
          split
          · exact Prog.Safe.pure trivial
          · refine Prog.Safe.perform fun _ => ⟨host, port, parsed, hsplit, hparsed, ?_⟩
            simpa [egressFamilyAllowed, hmark] using hfamily
      · refine (withTimeout_safe deadline _).bind fun resolveDeadline _ => ?_
        obtain ⟨tunnel, htunnel, hfwmark⟩ := markFor_ne_zero hmark
        have hservers : ∀ server ∈ (c.tunnelResolver (c.markFor via)).servers,
            (c.tunnelResolver (c.markFor via)).mark ≠ 0 → IsIPv4Target server :=
          fun server hs _ => h tunnel htunnel server (by rw [hfwmark]; exact hs)
        refine (lookupNetIP_safe _ .ip4 host resolveDeadline hservers).bind fun found hfound => ?_
        cases found with
        | error _ => exact Prog.Safe.pure trivial
        | ok addrs =>
          have hfamily : ∀ a ∈ addrs, egressFamilyAllowed a (c.markFor via) = true := by
            intro a ha
            simp [egressFamilyAllowed, hfound addrs rfl rfl a ha]
          refine (select_safe hfamily).bind fun candidates hcandidates => ?_
          split
          · exact Prog.Safe.pure trivial
          · unfold dialCandidates
            split
            · exact Prog.Safe.pure trivial
            · refine dialEach_safe (splitHostPort_port hsplit) (fun a ha => ?_) []
              obtain ⟨-, -, -, -, hipv4⟩ := hcandidates a (List.mem_of_mem_take ha)
              exact hipv4 hmark

/-! ## A server that is dialed -/

/-- An environment in which every lookup dials once and fails. -/
def failingAnswer : (e : Env) → Unit → e.Response × Unit
  | .ctxErr _, s => (none, s)
  | .now, s => (0, s)
  | .resolve _ _ _, s => (.error .denied, s)
  | .invalidate _ _, s => ((), s)
  | .sequence, s => (0, s)
  | .dial _ _ _, s => (.error (.text "unreachable"), s)
  | .record _ _, s => ((), s)
  | .exchanges _ _, s => (1, s)
  | .answer _ _, s => (.error ⟨false, false⟩, s)

/-- When every lookup fails, each server is dialed in turn. -/
theorem lookupFrom_dials (r : TunnelResolver) (network : LookupNetwork) (host : String)
    (deadline : Option ℤ) (servers : List String) (errs : List (LookupError ⊕ Err)) :
    dialsOf (Prog.trace failingAnswer
      (r.lookupFrom deadline network host servers errs []) ()).1 =
        servers.map fun server => (r.mark, server) := by
  induction servers generalizing errs with
  | nil => rfl
  | cons server rest ih =>
    rw [List.map_cons, ← ih (errs ++ [.inl ⟨false, false⟩])]
    cases deadline <;> rfl

theorem lookupNetIP_dials (r : TunnelResolver) (host : String) (deadline : Option ℤ)
    {server : String} (h : server ∈ r.servers) : ∃ t a,
      (r.lookupNetIP deadline .ip host).Runs t a ∧ (r.mark, server) ∈ dialsOf t := by
  refine ⟨_, _, Prog.runs_trace failingAnswer _ (), ?_⟩
  have htrace : dialsOf (Prog.trace failingAnswer (r.lookupNetIP deadline .ip host) ()).1 =
      r.servers.map fun server => (r.mark, server) :=
    lookupFrom_dials r .ip4 host _ r.servers []
  rw [htrace]
  exact List.mem_map.mpr ⟨server, h, rfl⟩

/-! ## The condition -/

/-- Every marked socket of a configuration is IPv4 exactly when the resolver servers of its
tunnels are IPv4 literals. -/
theorem marked_dials_ipv4_iff {x : External} {decoded c : Config}
    (hload : decoded.parse x = .ok c) :
    (∀ t, Activity c t → ∀ d ∈ dialsOf t, d.1 ≠ 0 → IsIPv4Target d.2) ↔ c.IPv4Resolvers := by
  constructor
  · intro h tunnel htunnel server hserver
    obtain ⟨t, a, hrun, hd⟩ := lookupNetIP_dials (c.tunnelResolver tunnel.fwmark) "" none hserver
    refine h t (.lookup htunnel none "" hrun) _ hd ?_
    have hpos := ((parse_valid hload).tunnel tunnel htunnel).fwmark.1
    change tunnel.fwmark ≠ 0
    omega
  · intro h t hactivity
    cases hactivity with
    | proxy deadline host isIP marks self hport hrun =>
      refine Segmented.markedIPv4 ?_ (dialEgressesFrom_runs hrun)
      rcases hport with rfl | rfl <;> decide
    | lookup htunnel deadline host hrun =>
      refine dialsOf_markedIPv4.mp (lookupNetIP_safe _ .ip host deadline ?_ t _ hrun).1
      exact fun server hs _ => h _ htunnel server hs
    | client via deadline addr hrun =>
      exact dialsOf_markedIPv4.mp (dialVia_safe h via deadline addr t _ hrun).1

/-- A file whose tunnel overrides the resolver. -/
def resolverFile (server : String) : Config :=
  sampleFile [{ sampleTunnel "wg0" 1 [] [] with resolver := [server] }] ⟨false, [], ""⟩

/-- A resolver server of an accepted file is dialed with the tunnel's mark. -/
theorem resolverFile_dials {server : String} {t : Tunnel}
    (ht : t ∈ (resolverFile server).normalize.tunnels) (hmark : t.fwmark = 1)
    (hserver : server ∈ (resolverFile server).normalize.resolversFor 1) :
    ∃ t, Activity (resolverFile server).normalize t ∧ (1, server) ∈ dialsOf t := by
  obtain ⟨u, a, hrun, hd⟩ := lookupNetIP_dials
    ((resolverFile server).normalize.tunnelResolver t.fwmark) "" none (hmark ▸ hserver)
  exact ⟨u, .lookup ht none "" hrun, hmark ▸ hd⟩

/-- An accepted file makes a lookup through a tunnel dial an IPv6 server with the tunnel's mark. -/
theorem marked_dial_of_resolver :
    (resolverFile "[2001:db8::53]:53").parse sampleExternal =
        .ok (resolverFile "[2001:db8::53]:53").normalize ∧
      (∃ t, Activity (resolverFile "[2001:db8::53]:53").normalize t ∧
        (1, "[2001:db8::53]:53") ∈ dialsOf t) ∧
      ¬IsIPv4Target "[2001:db8::53]:53" := by
  refine ⟨by decide +kernel, ?_, by decide +kernel⟩
  exact resolverFile_dials List.mem_cons_self rfl List.mem_cons_self

/-- The default servers are IPv4 literals, so every marked socket is. -/
theorem marked_dials_ipv4_default :
    (resolverFile "1.1.1.1:53").parse sampleExternal =
        .ok (resolverFile "1.1.1.1:53").normalize ∧
      ∀ t, Activity (resolverFile "1.1.1.1:53").normalize t →
        ∀ d ∈ dialsOf t, d.1 ≠ 0 → IsIPv4Target d.2 := by
  have hload : (resolverFile "1.1.1.1:53").parse sampleExternal =
      .ok (resolverFile "1.1.1.1:53").normalize := by decide +kernel
  refine ⟨hload, (marked_dials_ipv4_iff hload).mpr ?_⟩
  unfold Config.IPv4Resolvers
  decide +kernel

end SakhtarWg
