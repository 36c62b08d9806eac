import SakhtarWg.HostEval

/-!
# What the reconciler reads

Each reader of the reconciler as a function of the host: links by name, what is on a link,
the compiled configuration of a tunnel and the comparison of a device with it.
-/

namespace SakhtarWg
open Text Netip Fallible Kernel Program

variable {x : Library} {h : Host} {n : String} {l : Link} {t : Tunnel}

/-! ## Links -/

theorem lookupLink_eval (h : Host) (name : String) :
    (lookupLink name).eval h = (.ok (h.links.find name), h) := by
  unfold lookupLink
  rw [Net.eval_bind_ok (Net.call_eval h (.linkByName name))]
  simp only [Host.call, Host.linkByName]
  cases h.links.find name with
  | none => rfl
  | some l => rfl

section
variable (hl : h.links.find n = some l)
include hl

theorem Host.linkAt_of_find : h.linkAt l.index = .ok l := by
  unfold Host.linkAt
  rw [Inventory.byIndex_of_find hl]

theorem addrList_call (family : Family) :
    h.call (.addrList l.index family) = (.ok (l.attrs.addrs.filter family.admits), h) := by
  simp only [Host.call, Host.addrList, Host.linkAt_of_find hl]
  rfl

theorem device_call (hkind : l.attrs.kind = "wireguard") :
    h.call (.device n) = (.ok l.attrs.device, h) := by
  simp only [Host.call, Host.deviceOf, hl, hkind, if_true]
  rfl

/-- The routes on a link are those it lists. -/
theorem routeList_on (family : Family) (table : ℤ) :
    h.routeList family ⟨some l.index, table, none⟩ =
      (l.attrs.listed.filter fun e => family.admits e.dst && (table = 0 || table = e.table)).map
        fun e => ⟨e, l.index⟩ := by
  have hmem := (Inventory.find_eq_some.mp hl).1
  -- neither another link nor a route without one matches the index
  have hother : ∀ m : Link, m.index ≠ l.index →
      (m.attrs.listed.map fun e => (⟨e, m.index⟩ : Route)).filter (fun r =>
        family.admits r.dst && RouteFilter.admits ⟨some l.index, table, none⟩ r) = [] := by
    intro m hm
    apply List.filter_eq_nil_iff.mpr
    intro r hr
    obtain ⟨e, -, rfl⟩ := List.mem_map.mp hr
    simp [RouteFilter.admits, Ne.symm hm]
  have hunbound : (h.unbound.map fun e => (⟨e, 0⟩ : Route)).filter (fun r =>
      family.admits r.dst && RouteFilter.admits ⟨some l.index, table, none⟩ r) = [] := by
    apply List.filter_eq_nil_iff.mpr
    intro r hr
    obtain ⟨e, -, rfl⟩ := List.mem_map.mp hr
    simp [RouteFilter.admits, h.links.positive l hmem]
  unfold Host.routeList Host.allRoutes
  rw [List.filter_append, hunbound, List.append_nil, List.filter_flatMap,
    Inventory.flatMap_only hl fun m _ hm => hother m hm, List.filter_map]
  congr 1
  apply List.filter_congr
  intro e _
  simp [RouteFilter.admits]

end

/-! ## The compiled configuration -/

theorem wgConfig_reads (x : Library) (t : Tunnel) : (wgConfig x t).Reads := by
  unfold wgConfig
  refine .bind (.ofExcept _) fun _ => .bind (.ofExcept _) fun _ => .bind (.check fun _ => rfl)
    fun _ => .bind (.ofExcept _) fun _ => .pure _

/-- A configuration has one peer, and its keys are those of the tunnel. -/
theorem wgConfig_eq_ok {cfg : WgConfig} (hcfg : (wgConfig x t).ask h = .ok cfg) :
    x.parseKey t.privateKey = .ok cfg.privateKey ∧ ∃ peer, cfg.peers = [peer] := by
  unfold wgConfig at hcfg
  rw [Net.ask_bind (.ofExcept _), bind_eq_ok] at hcfg
  obtain ⟨priv, hpriv, hcfg⟩ := hcfg
  rw [Net.ask_bind (.ofExcept _), bind_eq_ok] at hcfg
  obtain ⟨pub, -, hcfg⟩ := hcfg
  rw [Net.ask_bind (.check fun _ => rfl), bind_eq_ok] at hcfg
  obtain ⟨endpoint, -, hcfg⟩ := hcfg
  rw [Net.ask_bind (.ofExcept _), bind_eq_ok] at hcfg
  obtain ⟨allowed, -, hcfg⟩ := hcfg
  cases hcfg
  exact ⟨mapError_eq_ok.mp hpriv, _, rfl⟩

/-- It is read from the endpoints alone. -/
theorem wgConfig_congr {h' : Host} (he : h'.endpoints = h.endpoints) :
    (wgConfig x t).ask h' = (wgConfig x t).ask h := by
  have hcheck : ∀ wrap, (Net.check (.resolveUDPAddr t.peer.endpoint) wrap).ask h' =
      (Net.check (.resolveUDPAddr t.peer.endpoint) wrap).ask h := by
    intro wrap
    have hcall : (h'.call (.resolveUDPAddr t.peer.endpoint)).1 =
        (h.call (.resolveUDPAddr t.peer.endpoint)).1 := by
      simp only [Host.call, he]
    cases hr : (h.call (.resolveUDPAddr t.peer.endpoint)).1 with
    | ok v =>
      rw [hr] at hcall
      unfold Net.ask
      rw [Net.check_eval (Prod.ext hr rfl : h.call _ = (.ok v, h)),
        Net.check_eval (Prod.ext hcall rfl : h'.call _ = (.ok v, h'))]
    | error e =>
      rw [hr] at hcall
      unfold Net.ask
      rw [Net.check_refused hr, Net.check_refused hcall]
  unfold wgConfig
  rw [Net.ask_bind (.ofExcept _), Net.ask_bind (.ofExcept _)]
  apply bind_congr
  intro priv
  rw [Net.ask_bind (.ofExcept _), Net.ask_bind (.ofExcept _)]
  apply bind_congr
  intro pub
  rw [Net.ask_bind (.check fun _ => rfl), Net.ask_bind (.check fun _ => rfl), hcheck]
  apply bind_congr
  intro endpoint
  rw [Net.ask_bind (.ofExcept _), Net.ask_bind (.ofExcept _)]
  rfl

/-! ## Comparing a device -/

/-- The only peer of the device is the configured one, as far as a device is compared. -/
structure PeerMatches (current : DevicePeer) (desired : PeerConfig) : Prop where
  publicKey : current.publicKey = desired.publicKey
  keepalive : current.keepalive = desired.keepalive.getD 0
  endpoint : current.endpoint = some desired.endpoint
  allowedIPs : sortedPrefixes current.allowedIPs = sortedPrefixes desired.allowedIPs

theorem deviceMatchesTunnel_reads (x : Library) (d : Device) (t : Tunnel) :
    (deviceMatchesTunnel x d t).Reads := by
  unfold deviceMatchesTunnel
  refine .bind (wgConfig_reads x t) fun compiled => ?_
  split
  · exact .pure _
  · exact .pure _

theorem deviceMatchesTunnel_ask {d : Device} {cfg : WgConfig} {desired : PeerConfig}
    (hcfg : (wgConfig x t).ask h = .ok cfg) (hpeer : cfg.peers = [desired]) :
    ∃ same, (deviceMatchesTunnel x d t).ask h = .ok same ∧ (same = true ↔
      d.publicKey x = x.publicKey cfg.privateKey ∧
        ∃ current, d.peers = [current] ∧ PeerMatches current desired) := by
  unfold deviceMatchesTunnel
  rw [Net.ask_bind (wgConfig_reads x t), hcfg]
  simp only [bind, Except.bind, hpeer]
  match hd : d.peers with
  | [] => exact ⟨false, rfl, by simp⟩
  | _ :: _ :: _ => exact ⟨false, rfl, by simp⟩
  | [current] =>
    refine ⟨_, rfl, ?_⟩
    simp only [Bool.and_eq_true, decide_eq_true_eq, List.cons.injEq, and_true]
    constructor
    · rintro ⟨⟨⟨⟨hkey, hpublic⟩, hkeep⟩, hend⟩, hallowed⟩
      exact ⟨hkey, current, rfl, hpublic, hkeep, hend, hallowed⟩
    · rintro ⟨hkey, _, rfl, hpublic, hkeep, hend, hallowed⟩
      exact ⟨⟨⟨⟨hkey, hpublic⟩, hkeep⟩, hend⟩, hallowed⟩

end SakhtarWg
