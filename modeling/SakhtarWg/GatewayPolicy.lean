import SakhtarWg.FirewallPlan
import SakhtarWg.Names

/-!
# What the compiled gateway chains do

The compiled rule texts, read back and evaluated packet by packet, decide exactly
what the policy says. The loop over tunnels is described once, by the lists it
leaves in its accumulators; the order inside a sorted block is irrelevant because
all its rules share one target.
-/

namespace SakhtarWg.Firewall
open Text Netip Fallible Iptables

/-! ## Canonical prefixes -/

/-- Membership of an IPv4 address in a textual prefix. -/
def inCIDR (text : String) (a : BitVec 32) : Bool :=
  match parsePrefix text with
  | some p => p.contains (.v4 a)
  | none => false

/-- A text of an IPv4 prefix without host bits, as `canonicalPrefixes` returns them. -/
def IsCanonical (text : String) : Prop :=
  ∃ p : Prefix, p.addr.is4 = true ∧ p.masked = p ∧ text = p.string

theorem insertPrefix_eq_ok {set set' : List String} {item : String} :
    canonicalPrefixes.insertPrefix set item = .ok set' ↔
      ∃ p, parsePrefix item = some p ∧ p.addr.is4 = true ∧ set.insert p.masked.string = set' := by
  unfold canonicalPrefixes.insertPrefix
  cases parsePrefix item with
  | none => simp
  | some p => simp [map_eq_ok]

theorem canonicalPrefixes_eq_ok {raw out : List String} (h : canonicalPrefixes raw = .ok out) :
    (∀ r ∈ raw, ∃ p, parsePrefix r = some p ∧ p.addr.is4 = true) ∧
      ∀ s, s ∈ out ↔ ∃ r ∈ raw, ∃ p, parsePrefix r = some p ∧ s = p.masked.string := by
  unfold canonicalPrefixes at h
  simp only [bind_eq_ok, pure_eq_ok] at h
  obtain ⟨set, hset, rfl⟩ := h
  have hinv := foldlM_ok (P := fun done set =>
    (∀ r ∈ done, ∃ p, parsePrefix r = some p ∧ p.addr.is4 = true) ∧
      ∀ s, s ∈ set ↔ ∃ r ∈ done, ∃ p, parsePrefix r = some p ∧ s = p.masked.string)
    (by simp) (by
      rintro done x set set' ⟨hall, hmem⟩ hx
      obtain ⟨p, hp, h4, rfl⟩ := insertPrefix_eq_ok.mp hx
      refine ⟨?_, ?_⟩
      · intro r hr
        rcases List.mem_append.mp hr with hr | hr
        · exact hall r hr
        · exact ⟨p, by simpa [List.mem_singleton.mp hr] using hp, h4⟩
      · intro s
        simp only [List.mem_insert_iff, hmem, List.mem_append, List.mem_singleton]
        constructor
        · rintro (rfl | ⟨r, hr, hs⟩)
          · exact ⟨x, .inr rfl, p, hp, rfl⟩
          · exact ⟨r, .inl hr, hs⟩
        · rintro ⟨r, hr | rfl, q, hq, hs⟩
          · exact .inr ⟨r, hr, q, hq, hs⟩
          · rw [hp] at hq
            exact .inl (by rw [hs, Option.some.inj hq])) hset
  exact ⟨hinv.1, fun s => by rw [mem_sortStrings, hinv.2]⟩

/-- Every list of IPv4 prefix texts is accepted. -/
theorem canonicalPrefixes_total {raw : List String}
    (h : ∀ r ∈ raw, ∃ p, parsePrefix r = some p ∧ p.addr.is4 = true) :
    ∃ out, canonicalPrefixes raw = .ok out := by
  obtain ⟨set, hset, -⟩ := foldlM_total (f := canonicalPrefixes.insertPrefix)
    (P := fun _ _ => True) (l := raw) (b := []) trivial (by
      intro done x rest b hl _
      obtain ⟨p, hp, h4⟩ := h x (by simp [hl])
      exact ⟨_, insertPrefix_eq_ok.mpr ⟨p, hp, h4, rfl⟩, trivial⟩)
  exact ⟨sortStrings set, by simp [canonicalPrefixes, hset]⟩

section
variable {raw out : List String} (h : canonicalPrefixes raw = .ok out)
include h

theorem canonicalPrefixes_canonical {s : String} (hs : s ∈ out) : IsCanonical s := by
  obtain ⟨hall, hmem⟩ := canonicalPrefixes_eq_ok h
  obtain ⟨r, hr, p, hp, rfl⟩ := (hmem s).mp hs
  obtain ⟨q, hq, h4⟩ := hall r hr
  rw [hp] at hq
  obtain rfl := Option.some.inj hq
  exact ⟨p.masked, by simpa using h4, by simp, rfl⟩

/-- Canonicalisation keeps the denoted addresses. -/
theorem exists_inCIDR_canonical (a : BitVec 32) :
    (∃ s ∈ out, inCIDR s a = true) ↔ ∃ r ∈ raw, inCIDR r a = true := by
  obtain ⟨hall, hmem⟩ := canonicalPrefixes_eq_ok h
  have hkey : ∀ r ∈ raw, ∀ p, parsePrefix r = some p →
      inCIDR p.masked.string a = inCIDR r a := by
    intro r hr p hp
    obtain ⟨q, hq, h4⟩ := hall r hr
    rw [hp] at hq
    obtain rfl := Option.some.inj hq
    have hback := parsePrefix_string (p := p.masked) (by simpa using h4)
    simp [inCIDR, hback, hp]
  constructor
  · rintro ⟨s, hs, hin⟩
    obtain ⟨r, hr, p, hp, rfl⟩ := (hmem s).mp hs
    exact ⟨r, hr, by rw [← hkey r hr p hp]; exact hin⟩
  · rintro ⟨r, hr, hin⟩
    obtain ⟨p, hp, -⟩ := hall r hr
    exact ⟨p.masked.string, (hmem _).mpr ⟨r, hr, p, hp, rfl⟩, by rw [hkey r hr p hp]; exact hin⟩

end

theorem IsCanonical.isWord {s : String} (h : IsCanonical s) : IsWord s.toList := by
  obtain ⟨p, h4, -, rfl⟩ := h
  exact Prefix.string_isWord h4

theorem IsCanonical.parse {s : String} (h : IsCanonical s) :
    ∃ p, parsePrefix s = some p ∧ ∀ a, inCIDR s a = p.contains (.v4 a) := by
  obtain ⟨p, h4, -, rfl⟩ := h
  refine ⟨p, parsePrefix_string h4, fun a => ?_⟩
  simp [inCIDR, parsePrefix_string h4]

/-! ## Reading the rule texts back -/

/-- The packet travels from a client towards a destination through the tunnel. -/
def Forwards (c d i : String) (p : Packet) : Prop :=
  inCIDR c p.src = true ∧ inCIDR d p.dst = true ∧ p.outIface = i

/-- The packet answers a client's connection through the tunnel. -/
def Returns (c d i : String) (p : Packet) : Prop :=
  inCIDR c p.dst = true ∧ inCIDR d p.src = true ∧ p.inIface = i ∧
    (p.state = .related ∨ p.state = .established)

/-- A TCP segment that opens a connection. -/
def IsSyn (p : Packet) : Prop := ∃ flags, p.tcp = some flags ∧ .syn ∈ flags ∧ .rst ∉ flags

/-- The common end of every rule: the ownership comment and the target. -/
theorem readsWords_owned (ws : List String) {t : Target} (hws : ∀ w ∈ ws, IsWord w.toList)
    (ht : readTarget ws = some t) :
    ReadsWords ("-m" :: "comment" :: "--comment" :: ownerComment :: "-j" :: ws) t
      fun _ => True :=
  ((readsWords_jump hws ht).comment (by decide)).module (by decide)

section
variable {c d i : String} (hc : IsCanonical c) (hd : IsCanonical d)
  (hi : interfaceNameOk i = true)
include hc hd

/-- The tuple `-s c -d d` in front of a rule. -/
theorem readsWords_tuple {ws : List String} {t : Target} {P : Packet → Prop}
    (h : ReadsWords ws t P) : ReadsWords ("-s" :: c :: "-d" :: d :: ws) t
      fun p => inCIDR c p.src = true ∧ inCIDR d p.dst = true ∧ P p := by
  obtain ⟨cp, hcp, hcin⟩ := hc.parse
  obtain ⟨dp, hdp, hdin⟩ := hd.parse
  simpa only [hcin, hdin] using (h.destination hd.isWord hdp).source hc.isWord hcp

include hi

theorem reads_forwardRule : Reads (forwardRule c d i) .accept (Forwards c d i) := by
  have hws := readsWords_tuple hc hd ((readsWords_owned ["ACCEPT"] (by decide) rfl).outIface
    (interfaceNameOk_isWord hi) (readIface_name hi))
  refine (hws.reads (forwardRule_eq c d i)).congr fun p => ?_
  simp [Forwards, ifaceMatches_name hi, eq_comm (a := i)]

theorem reads_returnRule : Reads (returnRule c d i) .accept (Returns c d i) := by
  have hstates : readList readState "RELATED,ESTABLISHED" = some [.related, .established] := by
    decide
  have htail := ((readsWords_owned ["ACCEPT"] (by decide) rfl).ctstate (by decide) hstates).module
    (m := "conntrack") (by decide)
  have hws := readsWords_tuple hd hc
    (htail.inIface (interfaceNameOk_isWord hi) (readIface_name hi))
  refine (hws.reads (returnRule_eq c d i)).congr fun p => ?_
  simp [Returns, ifaceMatches_name hi, eq_comm (a := i), and_left_comm (a := inCIDR d p.src = true)
    (b := inCIDR c p.dst = true)]

theorem reads_masqueradeRule : Reads (masqueradeRule c d i) .masquerade (Forwards c d i) := by
  have hws := readsWords_tuple hc hd ((readsWords_owned ["MASQUERADE"] (by decide)
    rfl).outIface (interfaceNameOk_isWord hi) (readIface_name hi))
  refine (hws.reads (masqueradeRule_eq c d i)).congr fun p => ?_
  simp [Forwards, ifaceMatches_name hi, eq_comm (a := i)]

theorem reads_clampRule :
    Reads (clampRule c d i) .clampMss fun p => Forwards c d i p ∧ IsSyn p := by
  have hexamined : readList readFlag "SYN,RST" = some [.syn, .rst] := by decide
  have hset : readList readFlag "SYN" = some [.syn] := by decide
  have htail := ((readsWords_owned ["TCPMSS", "--clamp-mss-to-pmtu"] (by decide) rfl).tcpFlags
    (by decide) (by decide) hexamined hset).module (m := "tcp") (by decide)
  have hws := readsWords_tuple hc hd
    (htail.tcp.outIface (interfaceNameOk_isWord hi) (readIface_name hi))
  refine (hws.reads (clampRule_eq c d i)).congr fun p => ?_
  cases htcp : p.tcp <;>
    simp [Forwards, ifaceMatches_name hi, eq_comm (a := i), IsSyn, htcp, Match.holds, and_assoc]

omit hc in
theorem reads_destinationDropRule : Reads (destinationDropRule d i) .drop
    fun p => inCIDR d p.dst = true ∧ p.outIface = i := by
  obtain ⟨dp, hdp, hdin⟩ := hd.parse
  have hws := ((readsWords_owned ["DROP"] (by decide) rfl).outIface
    (interfaceNameOk_isWord hi) (readIface_name hi)).destination hd.isWord hdp
  refine (hws.reads (destinationDropRule_eq d i)).congr fun p => ?_
  simp [hdin, ifaceMatches_name hi, eq_comm (a := i)]

end

section
variable {c : String} (hc : IsCanonical c)
include hc

theorem reads_sourceDropRule : Reads (sourceDropRule c) .drop fun p => inCIDR c p.src = true := by
  obtain ⟨cp, hcp, hcin⟩ := hc.parse
  have hws := (readsWords_owned ["DROP"] (by decide) rfl).source hc.isWord hcp
  refine (hws.reads (sourceDropRule_eq c)).congr fun p => ?_
  simp [hcin]

theorem reads_targetDropRule : Reads (targetDropRule c) .drop fun p => inCIDR c p.dst = true := by
  obtain ⟨cp, hcp, hcin⟩ := hc.parse
  have hws := (readsWords_owned ["DROP"] (by decide) rfl).destination hc.isWord hcp
  refine (hws.reads (targetDropRule_eq c)).congr fun p => ?_
  simp [hcin]

end

/-! ## What the loop leaves in its accumulators -/

/-- The canonical destinations of a tunnel; empty when its texts are refused. -/
def destinationsOf (t : TunnelPolicy) : List String :=
  match canonicalPrefixes t.destinations with
  | .ok ds => ds
  | .error _ => []

/-- The accumulators after claiming `done` for `iface` from `b`. -/
structure Claimed (iface : String) (b : Build) (done : List String) (b' : Build) : Prop where
  filter : b'.filter = b.filter
  nat : b'.nat = b.nat
  mangle : b'.mangle = b.mangle
  seen : b'.seenInterface = b.seenInterface
  drops : b'.destinationDrops = b.destinationDrops ++ done.map (destinationDropRule · iface)
  owners : ∀ o, o ∈ b'.destinationOwners ↔ o ∈ b.destinationOwners ∨
    ∃ d ∈ done, parsePrefix d = some o.1 ∧ o.2 = iface
  disjoint : ∀ o ∈ b.destinationOwners, o.2 ≠ iface → ∀ d ∈ done, ∀ p, parsePrefix d = some p →
    o.1.overlaps p = false

theorem Build.claim_eq_ok {iface d : String} {b b' : Build} (h : b.claim iface d = .ok b') :
    ∃ p, parsePrefix d = some p ∧
      (∀ o ∈ b.destinationOwners, o.2 ≠ iface → o.1.overlaps p = false) ∧
      b' = { b with
        destinationOwners := b.destinationOwners ++ [(p, iface)]
        destinationDrops := b.destinationDrops ++ [destinationDropRule d iface] } := by
  unfold Build.claim at h
  split at h
  · cases h
  · rename_i p hp
    split at h
    · cases h
    · rename_i hfind
      refine ⟨p, hp, ?_, (Except.ok.inj h).symm⟩
      intro o ho hne
      have := List.find?_eq_none.mp hfind o ho
      simpa [hne] using this

theorem Claimed.step {iface d : String} {done : List String} {b c c' : Build}
    (hP : Claimed iface b done c) (hc : c.claim iface d = .ok c') :
    Claimed iface b (done ++ [d]) c' := by
  obtain ⟨p, hp, hdis, rfl⟩ := Build.claim_eq_ok hc
  refine ⟨hP.filter, hP.nat, hP.mangle, hP.seen, by simp [hP.drops], ?_, ?_⟩
  · rintro ⟨q, j⟩
    simp only [List.mem_append, hP.owners, List.mem_singleton, Prod.mk.injEq]
    constructor
    · rintro ((h | ⟨e, he, hq⟩) | ⟨rfl, rfl⟩)
      · exact .inl h
      · exact .inr ⟨e, .inl he, hq⟩
      · exact .inr ⟨d, .inr rfl, hp, rfl⟩
    · rintro (h | ⟨e, he | rfl, hq, rfl⟩)
      · exact .inl (.inl h)
      · exact .inl (.inr ⟨e, he, hq, rfl⟩)
      · rw [hp] at hq
        exact .inr ⟨(Option.some.inj hq).symm, rfl⟩
  · intro o ho hne e he q hq
    rcases List.mem_append.mp he with he | he
    · exact hP.disjoint o ho hne e he q hq
    · rw [List.mem_singleton.mp he, hp] at hq
      rw [← Option.some.inj hq]
      exact hdis o ((hP.owners o).mpr (.inl ho)) hne

theorem Claimed.nil (iface : String) (b : Build) : Claimed iface b [] b :=
  ⟨rfl, rfl, rfl, rfl, by simp, by simp, by simp⟩

theorem Build.claims_eq_ok {iface : String} {ds : List String} {b b' : Build}
    (h : ds.foldlM (Build.claim iface) b = .ok b') : Claimed iface b ds b' :=
  foldlM_ok (P := Claimed iface b) (Claimed.nil iface b) (fun _ _ _ _ hP hc => hP.step hc) h

/-- Destinations that stay clear of the other owners are all claimed. -/
theorem Build.claims_total (iface : String) (ds : List String) {b : Build}
    (hparse : ∀ d ∈ ds, ∃ p, parsePrefix d = some p)
    (hdis : ∀ o ∈ b.destinationOwners, o.2 ≠ iface → ∀ d ∈ ds, ∀ p, parsePrefix d = some p →
      o.1.overlaps p = false) : ∃ b', ds.foldlM (Build.claim iface) b = .ok b' := by
  obtain ⟨b', hb', -⟩ := foldlM_total (f := Build.claim iface) (P := Claimed iface b) (l := ds)
    (Claimed.nil iface b) (by
      intro done d rest c hl hP
      obtain ⟨p, hp⟩ := hparse d (by simp [hl])
      have hnone : c.destinationOwners.find? (fun o => o.2 ≠ iface && o.1.overlaps p) = none := by
        rw [List.find?_eq_none]
        intro o ho
        rcases (hP.owners o).mp ho with ho | ⟨_, -, -, rfl⟩
        · by_cases hne : o.2 = iface
          · simp [hne]
          · simp [hdis o ho hne d (by simp [hl]) p hp]
        · simp
      have hclaim : ∃ c', c.claim iface d = .ok c' := by
        simp only [Build.claim, hp, hnone]
        exact ⟨_, rfl⟩
      obtain ⟨c', hc'⟩ := hclaim
      exact ⟨c', hc', hP.step hc'⟩)
  exact ⟨b', hb'⟩

/-- The double loop over clients and destinations only appends rule texts. -/
theorem Build.permits_eq (iface : String) (tuples : List (String × String)) (b : Build) :
    tuples.foldl (Build.permit iface) b = { b with
      filter := b.filter ++
        tuples.flatMap fun x => [forwardRule x.1 x.2 iface, returnRule x.1 x.2 iface]
      nat := b.nat ++ tuples.map fun x => masqueradeRule x.1 x.2 iface
      mangle := b.mangle ++ tuples.map fun x => clampRule x.1 x.2 iface } := by
  induction tuples generalizing b with
  | nil => simp
  | cons x xs ih =>
    rw [List.foldl_cons, ih]
    simp [Build.permit]

/-- The accumulators after the tunnels `done`. -/
structure Built (clients : List String) (done : List TunnelPolicy) (b : Build) : Prop where
  filter : b.filter = done.flatMap fun t => (clients ×ˢ destinationsOf t).flatMap fun x =>
    [forwardRule x.1 x.2 t.interface, returnRule x.1 x.2 t.interface]
  nat : b.nat = done.flatMap fun t => (clients ×ˢ destinationsOf t).map fun x =>
    masqueradeRule x.1 x.2 t.interface
  mangle : b.mangle = done.flatMap fun t => (clients ×ˢ destinationsOf t).map fun x =>
    clampRule x.1 x.2 t.interface
  drops : b.destinationDrops = done.flatMap fun t =>
    (destinationsOf t).map (destinationDropRule · t.interface)
  seen : b.seenInterface = done.map (·.interface)
  nodup : (done.map (·.interface)).Nodup
  canonical : ∀ t ∈ done, canonicalPrefixes t.destinations = .ok (destinationsOf t)
  owners : ∀ o, o ∈ b.destinationOwners ↔ ∃ t ∈ done, ∃ d ∈ destinationsOf t,
    parsePrefix d = some o.1 ∧ o.2 = t.interface
  disjoint : ∀ o ∈ b.destinationOwners, ∀ o' ∈ b.destinationOwners, o.2 ≠ o'.2 →
    o.1.overlaps o'.1 = false

theorem Build.tunnel_eq_ok {clients : List String} {t : TunnelPolicy} {b b' : Build}
    (h : b.tunnel clients t = .ok b') :
    t.interface ∉ b.seenInterface ∧
      canonicalPrefixes t.destinations = .ok (destinationsOf t) ∧
      ∃ c, Claimed t.interface { b with seenInterface := b.seenInterface ++ [t.interface] }
          (destinationsOf t) c ∧
        b' = (clients ×ˢ destinationsOf t).foldl (Build.permit t.interface) c := by
  unfold Build.tunnel at h
  simp only [bind_eq_ok, pure_eq_ok, mapError_eq_ok, require_eq_ok, decide_eq_true_eq] at h
  obtain ⟨_, -, _, hseen, ds, hds, c, hc, rfl⟩ := h
  have hdest : destinationsOf t = ds := by simp [destinationsOf, hds]
  rw [hdest]
  exact ⟨hseen, hds, c, Build.claims_eq_ok hc, rfl⟩

theorem Built.step {clients : List String} {done : List TunnelPolicy} {t : TunnelPolicy}
    {b b' : Build} (hb : Built clients done b) (h : b.tunnel clients t = .ok b') :
    Built clients (done ++ [t]) b' := by
  obtain ⟨hnew, hds, c, hc, rfl⟩ := Build.tunnel_eq_ok h
  have hfresh : ∀ u ∈ done, u.interface ≠ t.interface := by
    intro u hu he
    rw [hb.seen] at hnew
    exact hnew (List.mem_map.mpr ⟨u, hu, he⟩)
  have howners : ∀ o, o ∈ c.destinationOwners ↔ ∃ u ∈ done ++ [t], ∃ d ∈ destinationsOf u,
      parsePrefix d = some o.1 ∧ o.2 = u.interface := by
    intro o
    rw [hc.owners o, hb.owners o]
    simp [or_and_right, exists_or]
  rw [Build.permits_eq]
  refine ⟨?_, ?_, ?_, ?_, ?_, ?_, ?_, howners, ?_⟩
  · simp [hc.filter, hb.filter]
  · simp [hc.nat, hb.nat]
  · simp [hc.mangle, hb.mangle]
  · simp [hc.drops, hb.drops]
  · simp [hc.seen, hb.seen]
  · rw [List.map_append, List.nodup_append]
    refine ⟨hb.nodup, by simp, ?_⟩
    rintro i hi j hj rfl
    obtain ⟨u, hu, rfl⟩ := List.mem_map.mp hi
    exact hfresh u hu (by simpa using hj)
  · intro u hu
    rcases List.mem_append.mp hu with hu | hu
    · exact hb.canonical u hu
    · rw [List.mem_singleton.mp hu]
      exact hds
  · -- an owner is old, or it belongs to the tunnel just processed
    intro o ho o' ho' hne
    rcases (hc.owners o).mp ho with h1 | ⟨d, hd, hp, hi⟩ <;>
      rcases (hc.owners o').mp ho' with h2 | ⟨d', hd', hp', hi'⟩
    · exact hb.disjoint o h1 o' h2 hne
    · exact hc.disjoint o h1 (hi' ▸ hne) d' hd' _ hp'
    · rw [Prefix.overlaps_comm]
      exact hc.disjoint o' h2 (hi ▸ hne.symm) d hd _ hp
    · exact absurd (hi.trans hi'.symm) hne

theorem Built.run {clients : List String} {tunnels : List TunnelPolicy} {b : Build}
    (h : tunnels.foldlM (Build.tunnel clients) Build.empty = .ok b) : Built clients tunnels b := by
  refine foldlM_ok (P := Built clients) ?_ (fun _ _ _ _ hP hx => hP.step hx) h
  constructor <;> simp [Build.empty]

/-- A successful compilation: canonical clients, the sorted tunnels, and the loop's result. -/
theorem compile_eq_ok {policy : Policy} {ruleset : Ruleset} (h : compile policy = .ok ruleset) :
    ∃ clients tunnels b, canonicalPrefixes policy.clientCIDRs = .ok clients ∧
      tunnels.Perm policy.tunnels ∧ Built clients tunnels b ∧ ruleset = assemble clients b := by
  unfold compile at h
  simp only [bind_eq_ok, pure_eq_ok, mapError_eq_ok] at h
  obtain ⟨clients, hclients, b, hb, rfl⟩ := h
  exact ⟨clients, _, b, hclients, List.perm_insertionSort _ _, Built.run hb, rfl⟩

/-! ## Which policies compile -/

/-- No destination of one tunnel overlaps a destination of the other. -/
def TunnelPolicy.Apart (t u : TunnelPolicy) : Prop :=
  ∀ d ∈ t.destinations, ∀ e ∈ u.destinations, ∀ p q, parsePrefix d = some p →
    parsePrefix e = some q → p.overlaps q = false

/-- Overlap does not depend on host bits, so canonical destinations inherit it. -/
theorem TunnelPolicy.Apart.canonical {t u : TunnelPolicy} (h : t.Apart u)
    (ht : canonicalPrefixes t.destinations = .ok (destinationsOf t))
    (hu : canonicalPrefixes u.destinations = .ok (destinationsOf u)) {d e : String} {p q : Prefix}
    (hd : d ∈ destinationsOf t) (he : e ∈ destinationsOf u) (hp : parsePrefix d = some p)
    (hq : parsePrefix e = some q) : p.overlaps q = false := by
  obtain ⟨hall, hmem⟩ := canonicalPrefixes_eq_ok ht
  obtain ⟨hall', hmem'⟩ := canonicalPrefixes_eq_ok hu
  obtain ⟨r, hr, p', hp', rfl⟩ := (hmem d).mp hd
  obtain ⟨r', hr', q', hq', rfl⟩ := (hmem' e).mp he
  obtain ⟨_, h4, h4'⟩ := hall r hr
  obtain rfl := Option.some.inj (hp'.symm.trans h4)
  obtain ⟨_, k4, k4'⟩ := hall' r' hr'
  obtain rfl := Option.some.inj (hq'.symm.trans k4)
  rw [parsePrefix_string (by simpa using h4')] at hp
  rw [parsePrefix_string (by simpa using k4')] at hq
  obtain rfl := Option.some.inj hp
  obtain rfl := Option.some.inj hq
  rw [Prefix.masked_overlaps, Prefix.overlaps_comm, Prefix.masked_overlaps, Prefix.overlaps_comm]
  exact h r hr r' hr' p' q' hp' hq'

theorem Build.tunnel_total {clients : List String} {done : List TunnelPolicy} {t : TunnelPolicy}
    {b : Build} (hb : Built clients done b) (hname : validInterface t.interface = .ok ())
    (hnew : t.interface ∉ done.map (·.interface))
    (hdest : ∀ d ∈ t.destinations, ∃ p, parsePrefix d = some p ∧ p.addr.is4 = true)
    (hapart : ∀ u ∈ done, u.Apart t) : ∃ b', b.tunnel clients t = .ok b' := by
  obtain ⟨ds, hds⟩ := canonicalPrefixes_total hdest
  have hof : destinationsOf t = ds := by simp [destinationsOf, hds]
  have hdist : canonicalPrefixes t.destinations = .ok (destinationsOf t) := hof ▸ hds
  obtain ⟨c, hc⟩ := Build.claims_total t.interface ds
    (b := { b with seenInterface := b.seenInterface ++ [t.interface] })
    (fun d hd => by
      obtain ⟨p, hp, -⟩ := (canonicalPrefixes_canonical hds hd).parse
      exact ⟨p, hp⟩)
    (fun o ho hne d hd p hp => by
      obtain ⟨u, hu, e, he, heq, -⟩ := (hb.owners o).mp ho
      exact (hapart u hu).canonical (hb.canonical u hu) hdist he (hof ▸ hd) heq hp)
  refine ⟨(clients ×ˢ ds).foldl (Build.permit t.interface) c, ?_⟩
  unfold Build.tunnel
  simp only [bind_eq_ok, pure_eq_ok, mapError_eq_ok, require_eq_ok, decide_eq_true_eq]
  exact ⟨(), hname, (), by rwa [hb.seen], ds, hds, c, hc, rfl⟩

/-- With admissible names and clients, a policy compiles exactly when its destinations are IPv4
prefixes and no two tunnels share an address. -/
theorem compile_iff {policy : Policy}
    (hnames : ∀ t ∈ policy.tunnels, validInterface t.interface = .ok ())
    (hnodup : (policy.tunnels.map (·.interface)).Nodup)
    (hclients : ∀ r ∈ policy.clientCIDRs, ∃ p, parsePrefix r = some p ∧ p.addr.is4 = true) :
    (∃ ruleset, compile policy = .ok ruleset) ↔
      (∀ t ∈ policy.tunnels, ∀ d ∈ t.destinations,
        ∃ p, parsePrefix d = some p ∧ p.addr.is4 = true) ∧
      ∀ t ∈ policy.tunnels, ∀ u ∈ policy.tunnels, t.interface ≠ u.interface → t.Apart u := by
  constructor
  · rintro ⟨ruleset, h⟩
    obtain ⟨clients, tunnels, b, -, hperm, hb, -⟩ := compile_eq_ok h
    have hcanon (t : TunnelPolicy) (ht : t ∈ policy.tunnels) :=
      hb.canonical t (hperm.mem_iff.mpr ht)
    refine ⟨fun t ht d hd => (canonicalPrefixes_eq_ok (hcanon t ht)).1 d hd, ?_⟩
    intro t ht u hu hne d hd e he p q hp hq
    have howner : ∀ v ∈ policy.tunnels, ∀ r ∈ v.destinations, ∀ s, parsePrefix r = some s →
        (s.masked, v.interface) ∈ b.destinationOwners := by
      intro v hv r hr s hs
      obtain ⟨hall, hmem⟩ := canonicalPrefixes_eq_ok (hcanon v hv)
      obtain ⟨s', hs', h4⟩ := hall r hr
      obtain rfl := Option.some.inj (hs.symm.trans hs')
      exact (hb.owners _).mpr ⟨v, hperm.mem_iff.mpr hv, s.masked.string,
        (hmem _).mpr ⟨r, hr, s, hs, rfl⟩, parsePrefix_string (by simpa using h4), rfl⟩
    have := hb.disjoint _ (howner t ht d hd p hp) _ (howner u hu e he q hq) hne
    rwa [Prefix.masked_overlaps, Prefix.overlaps_comm, Prefix.masked_overlaps,
      Prefix.overlaps_comm] at this
  · rintro ⟨hdest, hapart⟩
    obtain ⟨clients, hclients⟩ := canonicalPrefixes_total hclients
    let tunnels := policy.tunnels.insertionSort (·.interface ≤ ·.interface)
    have hperm : tunnels.Perm policy.tunnels := List.perm_insertionSort _ _
    have hnodup' : (tunnels.map (·.interface)).Nodup := (hperm.map _).nodup_iff.mpr hnodup
    obtain ⟨b, hb, -⟩ := foldlM_total (f := Build.tunnel clients) (P := Built clients)
      (l := tunnels) (b := Build.empty) (by constructor <;> simp [Build.empty]) (by
        intro done t rest b hl hP
        have hmem : ∀ u ∈ done ++ t :: rest, u ∈ policy.tunnels :=
          fun u hu => hperm.mem_iff.mp (hl ▸ hu)
        rw [hl, List.map_append, List.map_cons, List.nodup_append] at hnodup'
        have hnew : t.interface ∉ done.map (·.interface) :=
          fun h => hnodup'.2.2 _ h _ (by simp) rfl
        obtain ⟨b', hb'⟩ := Build.tunnel_total hP (hnames t (hmem t (by simp))) hnew
          (hdest t (hmem t (by simp))) (fun u hu => hapart u (hmem u (by simp [hu])) t
            (hmem t (by simp)) fun he => hnew (List.mem_map.mpr ⟨u, hu, he⟩))
        exact ⟨b', hb', hP.step hb'⟩)
    refine ⟨assemble clients b, ?_⟩
    unfold compile
    simp only [bind_eq_ok, pure_eq_ok, mapError_eq_ok]
    exact ⟨clients, hclients, b, hb, rfl⟩

end SakhtarWg.Firewall
