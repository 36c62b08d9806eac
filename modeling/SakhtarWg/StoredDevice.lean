import Mathlib.Data.List.Dedup
import Mathlib.Data.List.Perm.Subperm
import SakhtarWg.EmptyPlan

/-!
# Reading a configured device back

A device keeps the networks of a peer as a set and its keepalive as whole seconds in 16 bits. The
comparison with the tunnel works on sorted texts and on the full interval, so it finds the device
configured exactly where nothing was lost on the way.
-/

namespace SakhtarWg
open Netip Text Fallible

/-! ## What a device keeps -/

/-- The interval in nanoseconds, after it went through 16 bits of seconds. -/
def storedKeepalive (interval : Option ℤ) : ℤ :=
  interval.getD 0 / 1000000000 % 65536 * 1000000000

/-- A peer as the device reports it: its networks in any order, each once. -/
structure DevicePeer.Stores (current : DevicePeer) (desired : PeerConfig) : Prop where
  publicKey : current.publicKey = desired.publicKey
  endpoint : current.endpoint = some desired.endpoint
  keepalive : current.keepalive = storedKeepalive desired.keepalive
  distinct : current.allowedIPs.Nodup
  networks : ∀ q, q ∈ current.allowedIPs ↔ ∃ p ∈ desired.allowedIPs, q = p.masked

/-- A device after `ConfigureDevice`. -/
structure Device.Stores (d : Device) (cfg : WgConfig) : Prop where
  privateKey : d.privateKey = some cfg.privateKey
  peers : List.Forall₂ DevicePeer.Stores d.peers cfg.peers

/-- One such device. -/
def Device.stored (cfg : WgConfig) : Device where
  privateKey := some cfg.privateKey
  peers := cfg.peers.map fun p =>
    ⟨p.publicKey, 0, some p.endpoint, (p.allowedIPs.map Prefix.masked).dedup,
      storedKeepalive p.keepalive⟩

theorem Device.stored_stores (cfg : WgConfig) : (Device.stored cfg).Stores cfg := by
  refine ⟨rfl, List.forall₂_map_left_iff.mpr (List.forall₂_same.mpr fun p _ => ?_)⟩
  refine ⟨rfl, rfl, rfl, List.nodup_dedup _, fun q => ?_⟩
  simp only [List.mem_dedup, List.mem_map, eq_comm]

/-! ## Intervals -/

theorem storedKeepalive_eq_iff {seconds : ℤ} (h : 0 ≤ seconds) :
    storedKeepalive (if 0 < seconds then some (seconds * 1000000000) else none) =
      (if 0 < seconds then some (seconds * 1000000000) else none).getD 0 ↔ seconds < 65536 := by
  unfold storedKeepalive
  split
  · simp only [Option.getD_some]
    omega
  · simp only [Option.getD_none]
    omega

/-! ## Texts of networks -/

theorem comma_not_digit : ∀ d < 16, ',' ≠ d.digitChar := by decide

theorem comma_not_mem_string {a : Addr} (hz : a.zone = "") : ',' ∉ a.string.toList := by
  have hquad : ∀ b : BitVec 32, ',' ∉ (formatIPv4 b).toList := fun b =>
    not_mem_formatIPv4 b ',' (by decide) comma_not_digit
  cases a with
  | zero => decide
  | v4 b => exact hquad b
  | v6 b z =>
    obtain rfl : z = "" := hz
    by_cases hmapped : (Addr.v6 b "").is4In6 = true
    · simp only [Addr.string, hmapped, if_true, String.toList_append, List.mem_append, not_or]
      exact ⟨by simp, hquad _⟩
    · simp only [Addr.string, hmapped]
      intro h
      rcases (formatIPv6_chars b).2 ',' h with h | ⟨d, hd, h⟩
      · exact absurd h (by decide)
      · exact comma_not_digit d hd h

theorem comma_not_mem_length (n : ℕ) : ',' ∉ (toString n).toList := by
  rw [toString_toList]
  exact not_mem_toDigits (by norm_num) (by norm_num) _ comma_not_digit

theorem comma_not_mem_ipNetString {a : Addr} (hz : a.zone = "") (n : ℕ) :
    ',' ∉ (ipNetString a n).toList := by
  have hmasked : (a.masked n).zone = "" := by cases a <;> exact hz
  unfold ipNetString
  dsimp only
  split
  · simp only [String.toList_append, List.mem_append, not_or]
    exact ⟨⟨comma_not_mem_string (Addr.unmap_zone hmasked), by simp⟩, comma_not_mem_length _⟩
  · simp only [String.toList_append, List.mem_append, not_or]
    exact ⟨⟨comma_not_mem_string hmasked, by simp⟩, comma_not_mem_length _⟩

/-- Joined with commas, texts without one can be told apart by their number. -/
theorem length_eq_of_sortedPrefixes {l l' : List Prefix} (hl : l ≠ []) (hl' : l' ≠ [])
    (hz : ∀ p ∈ l, p.addr.zone = "") (hz' : ∀ p ∈ l', p.addr.zone = "")
    (h : sortedPrefixes l = sortedPrefixes l') : l.length = l'.length := by
  have hsplit : ∀ k : List Prefix, k ≠ [] → (∀ p ∈ k, p.addr.zone = "") →
      ((sortedPrefixes k).toList.splitOn ',').length = k.length := by
    intro k hk hzone
    have hcommas : ∀ s ∈ (sortStrings (k.map fun p => ipNetString p.addr p.bits)).map
        String.toList, ',' ∉ s := by
      intro s hs
      obtain ⟨text, htext, rfl⟩ := List.mem_map.mp hs
      obtain ⟨p, hp, rfl⟩ := List.mem_map.mp (mem_sortStrings.mp htext)
      exact comma_not_mem_ipNetString (hzone p hp) _
    have hlength : (sortStrings (k.map fun p => ipNetString p.addr p.bits)).length = k.length := by
      rw [(sortStrings_perm _).length_eq, List.length_map]
    rw [sortedPrefixes, String.toList_intercalate]
    change ((List.intercalate [','] _).splitOn ',').length = _
    rw [List.splitOn_intercalate _ hcommas, List.length_map, hlength]
    intro hnil
    rw [List.map_eq_nil_iff, ← List.length_eq_zero_iff, hlength, List.length_eq_zero_iff] at hnil
    exact hk hnil
  rw [← hsplit l hl hz, ← hsplit l' hl' hz', h]

/-- A set read back as a list sorts to the same texts exactly when nothing was listed twice. -/
theorem sortedPrefixes_eq_iff {l l' : List Prefix} (hz : ∀ p ∈ l', p.addr.zone = "")
    (hnodup : l.Nodup) (hsame : ∀ q, q ∈ l ↔ q ∈ l') :
    sortedPrefixes l = sortedPrefixes l' ↔ l'.Nodup := by
  constructor
  · intro h
    by_cases hl : l = []
    · have hl' : l' = [] := List.eq_nil_iff_forall_not_mem.mpr fun q hq => by
        have := (hsame q).mpr hq
        rw [hl] at this
        cases this
      rw [hl']
      exact List.nodup_nil
    · have hl' : l' ≠ [] := by
        obtain ⟨q, hq⟩ := List.exists_mem_of_ne_nil l hl
        exact List.ne_nil_of_mem ((hsame q).mp hq)
      have hlength := length_eq_of_sortedPrefixes hl hl' (fun p hp => hz p ((hsame p).mp hp)) hz h
      have hsub : l.Subperm l' := hnodup.subperm fun q hq => (hsame q).mp hq
      exact (hsub.perm_of_length_le hlength.ge).nodup_iff.mp hnodup
  · intro hnodup'
    have hperm : l.Perm l' := (List.perm_ext_iff_of_nodup hnodup hnodup').mpr hsame
    rw [sortedPrefixes, sortedPrefixes, sortStrings_eq_of_perm (hperm.map _)]

/-! ## What the validator asks of a peer -/

/-- The networks of the allowed IPs, as written into the configuration of the peer. -/
def Tunnel.networks (t : Tunnel) : List Prefix :=
  t.peer.allowedIPs.filterMap fun cidr => (parseNet cidr).map Prefix.masked

/-- A tunnel whose keys, keepalive and allowed IPs are accepted. -/
structure Tunnel.PeerValid (x : External) (t : Tunnel) : Prop where
  privateKey : ∃ key, x.parseKey t.privateKey = .ok key
  publicKey : ∃ key, x.parseKey t.peer.publicKey = .ok key
  keepalive : 0 ≤ t.peer.keepalive
  allowedIPs : ∀ cidr ∈ t.peer.allowedIPs, (parseCIDR cidr.toList).isSome = true

theorem requireKey_eq_ok {x : External} {t : Tunnel} {field key : String} {u : Unit}
    (h : requireKey x t field key = .ok u) : ∃ parsed, x.parseKey key = .ok parsed := by
  simp only [requireKey, bind_eq_ok, mapError_eq_ok] at h
  obtain ⟨_, -, parsed, hparsed, -⟩ := h
  exact ⟨parsed, hparsed⟩

theorem validateTunnel_peerValid {x : External} {earlier out : List Tunnel} {t : Tunnel}
    (h : t.validate x earlier = .ok out) : t.PeerValid x := by
  unfold Tunnel.validate Tunnel.validateLink Tunnel.validatePeer at h
  simp only [bind_eq_ok] at h
  obtain ⟨_, ⟨_, -, _, -, _, -, _, hprivate, -⟩, _, ⟨_, hpublic, _, -, _, -, _, hseconds, hallowed⟩,
    -⟩ := h
  simp only [requireSeconds, require_eq_ok, validSeconds, Bool.and_eq_true,
    decide_eq_true_eq] at hseconds
  simp only [forM_eq_ok, require_eq_ok] at hallowed
  exact ⟨requireKey_eq_ok hprivate, requireKey_eq_ok hpublic, hseconds.1, hallowed⟩

theorem validate_peerValid {x : External} {decoded c : Config} (h : decoded.validate x = .ok c) :
    ∀ t ∈ c.tunnels, t.PeerValid x := by
  obtain ⟨rules, rfl⟩ := validate_eq_ok h
  unfold Config.validate Config.validateTunnels at h
  simp only [bind_eq_ok] at h
  obtain ⟨_, -, _, -, _, -, _, ⟨seen, htunnels, -⟩, -⟩ := h
  exact (foldlM_collect id (fun _ _ => True) (Tunnel.PeerValid x)
    (fun _ _ _ hok => ⟨(validateTunnel_eq_ok hok).1, fun _ _ => trivial,
      validateTunnel_peerValid hok⟩) htunnels).2.2

theorem parseNet_of_parseCIDR {cidr : String} (h : (parseCIDR cidr.toList).isSome = true) :
    ∃ p, parseNet cidr = some p ∧ p.addr.zone = "" := by
  unfold parseNet
  cases hcidr : parseCIDR cidr.toList with
  | none => simp [hcidr] at h
  | some parsed =>
    obtain ⟨a, n⟩ := parsed
    unfold parseCIDR at hcidr
    split at hcidr
    · cases hcidr
    · split at hcidr
      · rename_i hip _
        split at hcidr
        · rename_i hle
          cases hcidr
          obtain ⟨b, -, hzone⟩ := Option.bind_eq_some_iff.mp hip
          split at hzone
          · cases hzone
            exact ⟨_, dif_pos hle, ‹_›⟩
          · cases hzone
        · cases hcidr
      · cases hcidr

theorem mem_networks {t : Tunnel} {x : External} (ht : t.PeerValid x) :
    ∀ p ∈ t.networks, p.masked = p ∧ p.addr.zone = "" := by
  intro p hp
  obtain ⟨cidr, hcidr, hnet⟩ := List.mem_filterMap.mp hp
  obtain ⟨q, hq, hzone⟩ := parseNet_of_parseCIDR (ht.allowedIPs cidr hcidr)
  rw [hq] at hnet
  cases hnet
  refine ⟨Prefix.masked_masked q, ?_⟩
  cases q with
  | mk a n hn => cases a <;> exact hzone

/-! ## The configuration of an accepted tunnel -/

section
variable {x : Library} {t : Tunnel} {h : Host} {endpoint : String}

theorem mapM_allowedPrefix (ht : t.PeerValid x.toExternal) :
    t.peer.allowedIPs.mapM (allowedPrefix x t) = .ok t.networks := by
  unfold Tunnel.networks
  have hall := ht.allowedIPs
  generalize t.peer.allowedIPs = allowed at hall
  induction allowed with
  | nil => rfl
  | cons cidr rest ih =>
    rw [List.forall_mem_cons] at hall
    obtain ⟨p, hp, -⟩ := parseNet_of_parseCIDR hall.1
    have hfirst : allowedPrefix x t cidr = .ok p.masked := by rw [allowedPrefix, hp]
    rw [List.mapM_cons, hfirst, List.filterMap_cons, hp, ih hall.2]
    rfl

/-- The interval of a keepalive, in nanoseconds. -/
def Tunnel.interval (t : Tunnel) : Option ℤ :=
  if 0 < t.peer.keepalive then some (t.peer.keepalive * 1000000000) else none

/-- The compiled configuration depends on the address the endpoint resolves to, and on nothing
else of the host. -/
theorem wgConfig_accepted (ht : t.PeerValid x.toExternal) (endpoint : String) : ∃ priv pub, ∀ h : Host,
    h.endpoints t.peer.endpoint = some endpoint →
      (wgConfig x t).ask h = .ok ⟨priv, [⟨pub, endpoint, t.networks, t.interval⟩]⟩ := by
  obtain ⟨priv, hpriv⟩ := ht.privateKey
  obtain ⟨pub, hpub⟩ := ht.publicKey
  refine ⟨priv, pub, fun h hend => ?_⟩
  have hcall : h.call (.resolveUDPAddr t.peer.endpoint) = (.ok endpoint, h) := by
    simp only [Host.call, hend]
    rfl
  unfold wgConfig Net.ask
  simp only [hpriv, hpub, mapM_allowedPrefix ht, Except.mapError]
  rw [Net.eval_bind_ok (ofExcept_eval h _),
    Net.eval_bind_ok (ofExcept_eval h _), Net.eval_bind_ok (Net.check_eval hcall),
    Net.eval_bind_ok (ofExcept_eval h _)]
  rfl

/-- After the device was configured, it is found as the tunnel wants it exactly when the keepalive
fits into 16 bits and no network was listed twice. -/
theorem deviceMatchesTunnel_stored (ht : t.PeerValid x.toExternal)
    (hend : h.endpoints t.peer.endpoint = some endpoint) {cfg : WgConfig}
    (hcfg : (wgConfig x t).ask h = .ok cfg) {d : Device} (hd : d.Stores cfg) {h' : Host}
    (hend' : h'.endpoints t.peer.endpoint = some endpoint) :
    (deviceMatchesTunnel x d t).ask h' =
      .ok (decide (t.peer.keepalive < 65536 ∧ t.networks.Nodup)) := by
  obtain ⟨priv, pub, hall⟩ := wgConfig_accepted ht endpoint
  obtain rfl := Except.ok.inj (hcfg.symm.trans (hall h hend))
  obtain ⟨same, hsame, hiff⟩ := deviceMatchesTunnel_ask (d := d) (hall h' hend') rfl
  rw [hsame, Except.ok.injEq, Bool.eq_iff_iff, hiff, decide_eq_true_eq]
  obtain ⟨hkey, hpeers⟩ := hd
  obtain ⟨current, rest, hcurrent, hrest, hlist⟩ := List.forall₂_cons_right_iff.mp hpeers
  rw [List.forall₂_nil_right_iff] at hrest
  subst hrest
  have hpublic : d.publicKey x = x.publicKey priv := by
    rw [Device.publicKey, hkey]
    rfl
  have hsorted : sortedPrefixes current.allowedIPs = sortedPrefixes t.networks ↔
      t.networks.Nodup := by
    refine sortedPrefixes_eq_iff (fun p hp => (mem_networks ht p hp).2) hcurrent.distinct ?_
    intro q
    rw [hcurrent.networks]
    constructor
    · rintro ⟨p, hp, rfl⟩
      rwa [(mem_networks ht p hp).1]
    · intro hq
      exact ⟨q, hq, (mem_networks ht q hq).1.symm⟩
  have hkeep : current.keepalive = t.interval.getD 0 ↔ t.peer.keepalive < 65536 := by
    rw [hcurrent.keepalive]
    exact storedKeepalive_eq_iff ht.keepalive
  rw [hlist]
  constructor
  · rintro ⟨-, current', hcons, hmatch⟩
    cases hcons
    exact ⟨hkeep.mp hmatch.keepalive, hsorted.mp hmatch.allowedIPs⟩
  · rintro ⟨hseconds, hnodup⟩
    exact ⟨hpublic, current, rfl, hcurrent.publicKey, hkeep.mpr hseconds, hcurrent.endpoint,
      hsorted.mpr hnodup⟩

end

/-! ## Accepted tunnels -/

/-- For every accepted tunnel and every address its endpoint resolves to, the device configured for
the tunnel matches it exactly under these two conditions, which the validator does not ask for. -/
theorem configured_device_matches_iff {x : Library} {decoded c : Config}
    (hc : decoded.validate x.toExternal = .ok c) {t : Tunnel} (ht : t ∈ c.tunnels) {h : Host}
    {endpoint : String} (hend : h.endpoints t.peer.endpoint = some endpoint) :
    ∃ cfg, (wgConfig x t).ask h = .ok cfg ∧
      ∀ (d : Device) (h' : Host), d.Stores cfg → h'.endpoints t.peer.endpoint = some endpoint →
        ((deviceMatchesTunnel x d t).ask h' = .ok true ↔
          t.peer.keepalive < 65536 ∧ t.networks.Nodup) := by
  have hpeer := validate_peerValid hc t ht
  obtain ⟨priv, pub, hcfg⟩ := wgConfig_accepted hpeer endpoint
  refine ⟨_, hcfg h hend, fun d h' hd hend' => ?_⟩
  rw [deviceMatchesTunnel_stored hpeer hend (hcfg h hend) hd hend', Except.ok.injEq,
    decide_eq_true_eq]

/-- A file with one tunnel. -/
def storedFile (keepalive : ℤ) (allowed : List String) : Config :=
  (sampleFile [{ sampleTunnel "wg0" 1 [] [] with
    peer := ⟨"public", "peer.example.net:51820", allowed, keepalive⟩ }]
    ⟨false, [], ""⟩).normalize

theorem storedFile_validate : ∀ keepalive ∈ [25, 65536],
    ∀ allowed ∈ [["0.0.0.0/0"], ["10.0.0.0/8", "10.0.0.1/8"]],
      (storedFile keepalive allowed).validate sampleLibrary.toExternal =
        .ok (storedFile keepalive allowed) := by
  decide +kernel

/-- The usual keepalive and a default route. -/
theorem configured_device_matches_default : ∃ t ∈ (storedFile 25 ["0.0.0.0/0"]).tunnels,
    ∃ cfg, (wgConfig sampleLibrary t).ask (plannedHost 1420) = .ok cfg ∧
      (deviceMatchesTunnel sampleLibrary (Device.stored cfg) t).ask (plannedHost 1420) =
        .ok true := by
  have hc := storedFile_validate 25 (by simp) ["0.0.0.0/0"] (by simp)
  obtain ⟨t, ht⟩ : ∃ t, t ∈ (storedFile 25 ["0.0.0.0/0"]).tunnels := ⟨_, List.mem_cons_self⟩
  obtain ⟨cfg, hcfg, hiff⟩ := configured_device_matches_iff hc ht
    (rfl : (plannedHost 1420).endpoints t.peer.endpoint = some "192.0.2.1:51820")
  refine ⟨t, ht, cfg, hcfg, (hiff _ _ (Device.stored_stores cfg) rfl).mpr ?_⟩
  obtain rfl := List.mem_singleton.mp ht
  decide +kernel

/-- A keepalive past 16 bits, and one network written twice: the validator accepts both files, and
the device just configured is reported as drifted. -/
theorem configured_device_drifts :
    (∃ t ∈ (storedFile 65536 ["0.0.0.0/0"]).tunnels,
      (storedFile 65536 ["0.0.0.0/0"]).validate sampleLibrary.toExternal =
        .ok (storedFile 65536 ["0.0.0.0/0"]) ∧
      ∃ cfg, (wgConfig sampleLibrary t).ask (plannedHost 1420) = .ok cfg ∧
        (Device.stored cfg).Stores cfg ∧
        (deviceMatchesTunnel sampleLibrary (Device.stored cfg) t).ask (plannedHost 1420) =
          .ok false) ∧
    ∃ t ∈ (storedFile 25 ["10.0.0.0/8", "10.0.0.1/8"]).tunnels,
      (storedFile 25 ["10.0.0.0/8", "10.0.0.1/8"]).validate sampleLibrary.toExternal =
        .ok (storedFile 25 ["10.0.0.0/8", "10.0.0.1/8"]) ∧
      ∃ cfg, (wgConfig sampleLibrary t).ask (plannedHost 1420) = .ok cfg ∧
        (Device.stored cfg).Stores cfg ∧
        (deviceMatchesTunnel sampleLibrary (Device.stored cfg) t).ask (plannedHost 1420) =
          .ok false := by
  have hdrift : ∀ file : Config, file.validate sampleLibrary.toExternal = .ok file →
      ∀ t ∈ file.tunnels, ¬(t.peer.keepalive < 65536 ∧ t.networks.Nodup) →
      ∃ cfg, (wgConfig sampleLibrary t).ask (plannedHost 1420) = .ok cfg ∧
        (Device.stored cfg).Stores cfg ∧
        (deviceMatchesTunnel sampleLibrary (Device.stored cfg) t).ask (plannedHost 1420) =
          .ok false := by
    intro file hfile t ht hcond
    have hpeer := validate_peerValid hfile t ht
    obtain ⟨priv, pub, hcfg⟩ := wgConfig_accepted hpeer "192.0.2.1:51820"
    refine ⟨_, hcfg (plannedHost 1420) rfl, Device.stored_stores _, ?_⟩
    rw [deviceMatchesTunnel_stored hpeer rfl (hcfg (plannedHost 1420) rfl) (Device.stored_stores _)
      rfl, decide_eq_false hcond]
  have hlong := storedFile_validate 65536 (by simp) ["0.0.0.0/0"] (by simp)
  have htwice := storedFile_validate 25 (by simp) ["10.0.0.0/8", "10.0.0.1/8"] (by simp)
  refine ⟨⟨_, List.mem_cons_self, hlong, hdrift _ hlong _ List.mem_cons_self ?_⟩,
    ⟨_, List.mem_cons_self, htwice, hdrift _ htwice _ List.mem_cons_self ?_⟩⟩
  · decide +kernel
  · decide +kernel

end SakhtarWg
