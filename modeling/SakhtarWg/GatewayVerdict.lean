import Mathlib.Data.List.ProdSigma
import SakhtarWg.GatewayPolicy

/-!
# The verdict of the gateway chains

The meaning of a gateway policy, and the refinement: first-match evaluation of
the compiled chains gives every packet the verdict the policy states.
-/

namespace SakhtarWg.Firewall
open Text Netip Fallible Iptables

/-- The packet matches a configured client, destination and tunnel. -/
def Policy.Forward (policy : Policy) (p : Packet) : Prop :=
  ∃ c ∈ policy.clientCIDRs, ∃ t ∈ policy.tunnels, ∃ d ∈ t.destinations, Forwards c d t.interface p

/-- The packet belongs to the return direction of such a tuple. -/
def Policy.Return (policy : Policy) (p : Packet) : Prop :=
  ∃ c ∈ policy.clientCIDRs, ∃ t ∈ policy.tunnels, ∃ d ∈ t.destinations, Returns c d t.interface p

/-- What is refused unless accepted: client traffic, and destinations leaving by their tunnel. -/
def Policy.Refuse (policy : Policy) (p : Packet) : Prop :=
  (∃ c ∈ policy.clientCIDRs, inCIDR c p.src = true ∨ inCIDR c p.dst = true) ∨
    ∃ t ∈ policy.tunnels, ∃ d ∈ t.destinations, inCIDR d p.dst = true ∧ p.outIface = t.interface

/-- The tunnel claims the address as a destination. -/
def TunnelPolicy.Claims (t : TunnelPolicy) (a : BitVec 32) : Prop :=
  ∃ d ∈ t.destinations, inCIDR d a = true

section
variable {policy : Policy} {clients : List String} {tunnels : List TunnelPolicy} {b : Build}
  (hclients : canonicalPrefixes policy.clientCIDRs = .ok clients)
  (hperm : tunnels.Perm policy.tunnels) (hb : Built clients tunnels b)
  (hnames : ∀ t ∈ policy.tunnels, interfaceNameOk t.interface = true)

include hclients hperm hb in
/-- Canonical tuples and configured tuples denote the same pairs of addresses. -/
theorem exists_tuple_iff (R : TunnelPolicy → Prop) (x y : BitVec 32) :
    (∃ t ∈ tunnels, ∃ c ∈ clients, ∃ d ∈ destinationsOf t,
        inCIDR c x = true ∧ inCIDR d y = true ∧ R t) ↔
      ∃ c ∈ policy.clientCIDRs, ∃ t ∈ policy.tunnels, ∃ d ∈ t.destinations,
        inCIDR c x = true ∧ inCIDR d y = true ∧ R t := by
  have hc := exists_inCIDR_canonical hclients x
  constructor
  · rintro ⟨t, ht, c, hcm, d, hd, hcx, hdy, hR⟩
    obtain ⟨c', hc', hcx'⟩ := hc.mp ⟨c, hcm, hcx⟩
    obtain ⟨d', hd', hdy'⟩ := (exists_inCIDR_canonical (hb.canonical t ht) y).mp ⟨d, hd, hdy⟩
    exact ⟨c', hc', t, hperm.mem_iff.mp ht, d', hd', hcx', hdy', hR⟩
  · rintro ⟨c, hcm, t, ht, d, hd, hcx, hdy, hR⟩
    have ht' := hperm.mem_iff.mpr ht
    obtain ⟨c', hc', hcx'⟩ := hc.mpr ⟨c, hcm, hcx⟩
    obtain ⟨d', hd', hdy'⟩ := (exists_inCIDR_canonical (hb.canonical t ht') y).mpr ⟨d, hd, hdy⟩
    exact ⟨t, ht', c', hc', d', hd', hcx', hdy', hR⟩

include hperm hb in
theorem exists_destination_iff (R : TunnelPolicy → Prop) (y : BitVec 32) :
    (∃ t ∈ tunnels, ∃ d ∈ destinationsOf t, inCIDR d y = true ∧ R t) ↔
      ∃ t ∈ policy.tunnels, ∃ d ∈ t.destinations, inCIDR d y = true ∧ R t := by
  constructor
  · rintro ⟨t, ht, d, hd, hdy, hR⟩
    obtain ⟨d', hd', hdy'⟩ := (exists_inCIDR_canonical (hb.canonical t ht) y).mp ⟨d, hd, hdy⟩
    exact ⟨t, hperm.mem_iff.mp ht, d', hd', hdy', hR⟩
  · rintro ⟨t, ht, d, hd, hdy, hR⟩
    have ht' := hperm.mem_iff.mpr ht
    obtain ⟨d', hd', hdy'⟩ := (exists_inCIDR_canonical (hb.canonical t ht') y).mpr ⟨d, hd, hdy⟩
    exact ⟨t, ht', d', hd', hdy', hR⟩

/-! ## The blocks of the chains -/

/-- One rule for each compiled tuple. -/
def tupleRules (clients : List String) (tunnels : List TunnelPolicy)
    (text : String → String → String → String) : List String :=
  tunnels.flatMap fun t => (clients ×ˢ destinationsOf t).map fun x => text x.1 x.2 t.interface

theorem mem_tupleRules (clients : List String) (tunnels : List TunnelPolicy)
    (text : String → String → String → String) (s : String) :
    s ∈ tupleRules clients tunnels text ↔ ∃ x : TunnelPolicy × String × String,
      (x.1 ∈ tunnels ∧ x.2.1 ∈ clients ∧ x.2.2 ∈ destinationsOf x.1) ∧
        s = text x.2.1 x.2.2 x.1.interface := by
  simp only [tupleRules, List.mem_flatMap, List.mem_map, Prod.exists, List.mem_product]
  constructor
  · rintro ⟨t, ht, c, d, ⟨hc, hd⟩, rfl⟩
    exact ⟨t, c, d, ⟨ht, hc, hd⟩, rfl⟩
  · rintro ⟨t, c, d, ⟨ht, hc, hd⟩, rfl⟩
    exact ⟨t, ht, c, d, ⟨hc, hd⟩, rfl⟩

include hclients hperm hb

theorem exists_forwards_iff (p : Packet) :
    (∃ t ∈ tunnels, ∃ c ∈ clients, ∃ d ∈ destinationsOf t, Forwards c d t.interface p) ↔
      policy.Forward p :=
  exists_tuple_iff hclients hperm hb (fun t => p.outIface = t.interface) p.src p.dst

include hnames

/-- A family of rules over the tuples forms one block that matches as the family says. -/
theorem tuple_block {text : String → String → String → String} {u : Target}
    {P : String → String → String → Packet → Prop}
    (hreads : ∀ {c d i : String}, IsCanonical c → IsCanonical d → interfaceNameOk i = true →
      Reads (text c d i) u (P c d i)) :
    Uniform (tupleRules clients tunnels text) u ∧
      ∀ p, hits (tupleRules clients tunnels text) p ↔
        ∃ t ∈ tunnels, ∃ c ∈ clients, ∃ d ∈ destinationsOf t, P c d t.interface p := by
  have hmem := mem_tupleRules clients tunnels text
  have hr : ∀ x : TunnelPolicy × String × String,
      (x.1 ∈ tunnels ∧ x.2.1 ∈ clients ∧ x.2.2 ∈ destinationsOf x.1) →
      Reads (text x.2.1 x.2.2 x.1.interface) u (P x.2.1 x.2.2 x.1.interface) := fun x hx =>
    hreads (canonicalPrefixes_canonical hclients hx.2.1)
      (canonicalPrefixes_canonical (hb.canonical x.1 hx.1) hx.2.2)
      (hnames x.1 (hperm.mem_iff.mp hx.1))
  refine ⟨uniform_of_reads _ _ _ hmem hr, fun p => ?_⟩
  rw [hits_iff _ _ _ hmem hr]
  simp only [Prod.exists]
  constructor
  · rintro ⟨t, c, d, ⟨ht, hc, hd⟩, hP⟩
    exact ⟨t, ht, c, hc, d, hd, hP⟩
  · rintro ⟨t, ht, c, hc, d, hd, hP⟩
    exact ⟨t, c, d, ⟨ht, hc, hd⟩, hP⟩

theorem accept_block : Uniform (sortStrings b.filter) .accept ∧
    ∀ p, hits (sortStrings b.filter) p ↔ policy.Forward p ∨ policy.Return p := by
  have hmem : ∀ s, s ∈ sortStrings b.filter ↔
      s ∈ tupleRules clients tunnels forwardRule ++ tupleRules clients tunnels returnRule := by
    intro s
    rw [mem_sortStrings, hb.filter]
    simp only [tupleRules, List.mem_append, List.mem_flatMap, List.mem_map, List.mem_cons,
      List.not_mem_nil, or_false, and_or_left, exists_or, eq_comm (a := s)]
  obtain ⟨hfu, hfh⟩ := tuple_block hclients hperm hb hnames reads_forwardRule
  obtain ⟨hru, hrh⟩ := tuple_block hclients hperm hb hnames reads_returnRule
  refine ⟨(hfu.append hru).congr hmem, fun p => ?_⟩
  have hreturn := exists_tuple_iff hclients hperm hb (fun t => p.inIface = t.interface ∧
    (p.state = .related ∨ p.state = .established)) p.dst p.src
  rw [hits_congr hmem, hits_append, hfh, hrh, exists_forwards_iff hclients hperm hb]
  exact or_congr Iff.rfl hreturn

/-- The terminal drops, client-scoped ones first. -/
theorem drop_block : Uniform (terminalDrops clients ++ sortStrings b.destinationDrops) .drop ∧
    ∀ p, hits (terminalDrops clients ++ sortStrings b.destinationDrops) p ↔ policy.Refuse p := by
  have hclient : ∀ s, s ∈ terminalDrops clients ↔
      s ∈ clients.map sourceDropRule ++ clients.map targetDropRule := by
    intro s
    simp only [terminalDrops, List.mem_flatMap, List.mem_cons, List.not_mem_nil, or_false,
      List.mem_append, List.mem_map, and_or_left, exists_or, eq_comm (a := s)]
  have hsource : ∀ s, s ∈ clients.map sourceDropRule ↔ ∃ c, c ∈ clients ∧ s = sourceDropRule c := by
    simp [eq_comm]
  have htarget : ∀ s, s ∈ clients.map targetDropRule ↔ ∃ c, c ∈ clients ∧ s = targetDropRule c := by
    simp [eq_comm]
  have hdest : ∀ s, s ∈ sortStrings b.destinationDrops ↔ ∃ x : TunnelPolicy × String,
      (x.1 ∈ tunnels ∧ x.2 ∈ destinationsOf x.1) ∧ s = destinationDropRule x.2 x.1.interface := by
    intro s
    rw [mem_sortStrings, hb.drops]
    simp only [List.mem_flatMap, List.mem_map, Prod.exists, eq_comm (a := s), and_assoc,
      exists_and_left]
  have hrs := fun c (hc : c ∈ clients) =>
    reads_sourceDropRule (canonicalPrefixes_canonical hclients hc)
  have hrt := fun c (hc : c ∈ clients) =>
    reads_targetDropRule (canonicalPrefixes_canonical hclients hc)
  have hrd := fun (x : TunnelPolicy × String) (hx : x.1 ∈ tunnels ∧ x.2 ∈ destinationsOf x.1) =>
    reads_destinationDropRule (canonicalPrefixes_canonical (hb.canonical x.1 hx.1) hx.2)
      (hnames x.1 (hperm.mem_iff.mp hx.1))
  refine ⟨(((uniform_of_reads _ _ _ hsource hrs).append (uniform_of_reads _ _ _ htarget hrt)).congr
    hclient).append (uniform_of_reads _ _ _ hdest hrd), fun p => ?_⟩
  rw [hits_append, hits_congr hclient, hits_append, hits_iff _ _ _ hsource hrs,
    hits_iff _ _ _ htarget hrt, hits_iff _ _ _ hdest hrd, exists_inCIDR_canonical hclients,
    exists_inCIDR_canonical hclients, ← exists_or, Policy.Refuse,
    ← exists_destination_iff hperm hb fun t => p.outIface = t.interface]
  simp only [← and_or_left, Prod.exists, and_assoc, exists_and_left]

end

/-! ## The verdict -/

theorem Policy.claims_unique {policy : Policy} {ruleset : Ruleset}
    (h : compile policy = .ok ruleset) (a : BitVec 32) {t u : TunnelPolicy}
    (ht : t ∈ policy.tunnels) (hu : u ∈ policy.tunnels) (hta : t.Claims a) (hua : u.Claims a) :
    t = u := by
  obtain ⟨clients, tunnels, b, -, hperm, hb, -⟩ := compile_eq_ok h
  have ht' := hperm.mem_iff.mpr ht
  have hu' := hperm.mem_iff.mpr hu
  by_contra hne
  have hiface : t.interface ≠ u.interface :=
    fun he => hne (List.inj_on_of_nodup_map hb.nodup ht' hu' he)
  obtain ⟨d, hd, hda⟩ := (exists_inCIDR_canonical (hb.canonical t ht') a).mpr hta
  obtain ⟨e, he, hea⟩ := (exists_inCIDR_canonical (hb.canonical u hu') a).mpr hua
  obtain ⟨p, hp4, -, rfl⟩ := canonicalPrefixes_canonical (hb.canonical t ht') hd
  obtain ⟨q, hq4, -, rfl⟩ := canonicalPrefixes_canonical (hb.canonical u hu') he
  have hover : p.overlaps q = true := by
    rw [Prefix.overlaps_iff hp4 hq4]
    simp only [inCIDR, parsePrefix_string hp4, parsePrefix_string hq4] at hda hea
    exact ⟨a, hda, hea⟩
  have := hb.disjoint (p, t.interface)
    ((hb.owners _).mpr ⟨t, ht', _, hd, parsePrefix_string hp4, rfl⟩) (q, u.interface)
    ((hb.owners _).mpr ⟨u, hu', _, he, parsePrefix_string hq4, rfl⟩) hiface
  rw [hover] at this
  cases this

/-- The compiled chains decide every packet as the policy says, and no address has two tunnels. -/
theorem compile_verdict {policy : Policy} {ruleset : Ruleset}
    (h : compile policy = .ok ruleset)
    (hnames : ∀ t ∈ policy.tunnels, interfaceNameOk t.interface = true) :
    ∃ filter nat mangle, ruleset.chains = [filter, nat, mangle] ∧
      (filter.table = "filter" ∧ filter.hook = "FORWARD") ∧
      (nat.table = "nat" ∧ nat.hook = "POSTROUTING") ∧
      (mangle.table = "mangle" ∧ mangle.hook = "FORWARD") ∧
      (∀ p, ∃ o, evaluate filter.rules p = some o ∧
        (o.verdict = some .accept ↔ policy.Forward p ∨ policy.Return p) ∧
        (o.verdict = some .drop ↔ ¬(policy.Forward p ∨ policy.Return p) ∧ policy.Refuse p) ∧
        (o.verdict = none ↔ ¬(policy.Forward p ∨ policy.Return p) ∧ ¬policy.Refuse p)) ∧
      (∀ p, ∃ o, evaluate nat.rules p = some o ∧
        (o.verdict = some .masquerade ↔ policy.Forward p) ∧
        (o.verdict = none ↔ ¬policy.Forward p)) ∧
      (∀ p, ∃ o, evaluate mangle.rules p = some o ∧ o.verdict = none ∧
        (o.clamped = true ↔ policy.Forward p ∧ IsSyn p)) ∧
      ∀ a, ∀ t ∈ policy.tunnels, ∀ u ∈ policy.tunnels, t.Claims a → u.Claims a → t = u := by
  obtain ⟨clients, tunnels, b, hclients, hperm, hb, rfl⟩ := compile_eq_ok h
  refine ⟨_, _, _, rfl, ⟨rfl, rfl⟩, ⟨rfl, rfl⟩, ⟨rfl, rfl⟩, fun p => ?_, fun p => ?_, fun p => ?_,
    fun a t ht u hu => Policy.claims_unique h a ht hu⟩
  · obtain ⟨hau, hah⟩ := accept_block hclients hperm hb hnames
    obtain ⟨hdu, hdh⟩ := drop_block hclients hperm hb hnames
    obtain ⟨o, ho, -, h1, h2, h3⟩ := evaluate_append (by decide) (by decide) hau hdu p
    rw [hah, hdh] at h2 h3
    rw [hah] at h1
    rw [List.append_assoc]
    refine ⟨o, ho, ?_⟩
    by_cases ha : policy.Forward p ∨ policy.Return p
    · simp [ha, h1 ha]
    · by_cases hd : policy.Refuse p
      · simp [ha, hd, h2 ha hd]
      · simp [ha, hd, h3 ha hd]
  · obtain ⟨hu, hh⟩ := tuple_block hclients hperm hb hnames reads_masqueradeRule
    have hmem : ∀ s, s ∈ sortStrings b.nat ↔ s ∈ tupleRules clients tunnels masqueradeRule := by
      intro s
      rw [mem_sortStrings, hb.nat, tupleRules]
    obtain ⟨o, ho, -, h1, h2⟩ := evaluate_uniform (by decide) (hu.congr hmem) p
    rw [hits_congr hmem, hh, exists_forwards_iff hclients hperm hb] at h1 h2
    refine ⟨o, ho, ?_⟩
    by_cases hf : policy.Forward p
    · simp [hf, h1 hf]
    · simp [hf, h2 hf]
  · obtain ⟨hu, hh⟩ := tuple_block hclients hperm hb hnames reads_clampRule
    have hmem : ∀ s, s ∈ sortStrings b.mangle ↔ s ∈ tupleRules clients tunnels clampRule := by
      intro s
      rw [mem_sortStrings, hb.mangle, tupleRules]
    obtain ⟨o, ho, hv, hc⟩ := evaluate_clamp (hu.congr hmem) p
    refine ⟨o, ho, hv, ?_⟩
    rw [hc, hits_congr hmem, hh, ← exists_forwards_iff hclients hperm hb]
    simp only [← exists_and_right, and_assoc]

/-- A client network behind two tunnels, one destination with host bits set. -/
def homePolicy : Policy :=
  ⟨["192.168.1.0/24"], [⟨"wg1", ["10.1.2.3/8"]⟩, ⟨"wg0", ["172.16.0.0/12", "1.1.1.1/32"]⟩]⟩

/-- A client packet to a destination of one tunnel that is routed out of the other is dropped. -/
theorem compile_verdict_home : ∃ ruleset, compile homePolicy = .ok ruleset ∧
    ∃ filter ∈ ruleset.chains, ∃ o, evaluate filter.rules
      ⟨0xc0a80105, 0x0a000001, "lan0", "wg0", 0, .new, none⟩ = some o ∧
        o.verdict = some .drop := by
  obtain ⟨ruleset, hok⟩ : ∃ ruleset, compile homePolicy = .ok ruleset := by
    have hb : (compile homePolicy).toBool = true := by decide +kernel
    cases h : compile homePolicy with
    | error e => rw [h] at hb; cases hb
    | ok r => exact ⟨r, rfl⟩
  obtain ⟨filter, nat, mangle, hchains, -, -, -, hfilter, -⟩ :=
    compile_verdict hok (by decide)
  obtain ⟨o, ho, -, hdrop, -⟩ := hfilter ⟨0xc0a80105, 0x0a000001, "lan0", "wg0", 0, .new, none⟩
  refine ⟨ruleset, hok, filter, by simp [hchains], o, ho, hdrop.mpr ⟨?_, ?_⟩⟩
  · simp only [Policy.Forward, Policy.Return, Forwards, Returns, homePolicy]
    decide +kernel
  · exact .inl ⟨"192.168.1.0/24", by simp [homePolicy], .inl (by decide +kernel)⟩

end SakhtarWg.Firewall
