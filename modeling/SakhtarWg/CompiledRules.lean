import Mathlib.Data.List.Chain
import Mathlib.Data.List.Nodup
import SakhtarWg.ChainOwnership
import SakhtarWg.GatewayVerdict

/-!
# The rules of compiled chains

No compiled chain lists a rule twice, and each is a block of rules that let packets
pass followed by a block that refuses them.
-/

namespace SakhtarWg.Firewall
open Text Fallible Iptables

/-- What one of the compilers returns for names the configuration admits. -/
def Produced (r : Ruleset) : Prop :=
  (∃ policy, compile policy = .ok r ∧
    ∀ t ∈ policy.tunnels, interfaceNameOk t.interface = true) ∨
  ∃ guards chain, compileEgressGuard guards = .ok chain ∧
    (∀ g ∈ guards, interfaceNameOk g.interface = true) ∧ r = ⟨[chain]⟩

/-! ## No rule twice -/

/-- Lists that share no element because their origins are told apart by a key. -/
theorem nodup_flatMap_key {α β κ : Type} {l : List α} {f : α → List β} (key : α → κ)
    (hl : (l.map key).Nodup) (hf : ∀ x ∈ l, (f x).Nodup)
    (hkey : ∀ x ∈ l, ∀ y ∈ l, ∀ b, b ∈ f x → b ∈ f y → key x = key y) :
    (l.flatMap f).Nodup := by
  rw [List.nodup_flatMap]
  refine ⟨hf, ?_⟩
  have hpair : l.Pairwise fun x y => key x ≠ key y := List.pairwise_map.mp hl
  apply hpair.imp_of_mem
  intro x y hx hy hne b hbx hby
  exact hne (hkey x hx y hy b hbx hby)

theorem sortStrings_nodup {l : List String} : (sortStrings l).Nodup ↔ l.Nodup :=
  (List.perm_insertionSort _ l).nodup_iff

theorem canonicalPrefixes_nodup {raw out : List String} (h : canonicalPrefixes raw = .ok out) :
    out.Nodup := by
  unfold canonicalPrefixes at h
  simp only [bind_eq_ok, pure_eq_ok] at h
  obtain ⟨set, hset, rfl⟩ := h
  rw [sortStrings_nodup]
  refine foldlM_ok (P := fun _ set => set.Nodup) List.nodup_nil ?_ hset
  intro _ x set set' hnodup hx
  obtain ⟨p, -, -, rfl⟩ := insertPrefix_eq_ok.mp hx
  exact hnodup.insert

/-- Equal rules are printed from the same words. -/
theorem Owned.words_inj {rule opts target} {rule' : String} {opts' target' : List String}
    (h : Owned rule opts target) (h' : Owned rule' opts' target') (heq : rule = rule') :
    opts ++ "-m" :: "comment" :: "--comment" :: ownerComment :: target =
      opts' ++ "-m" :: "comment" :: "--comment" :: ownerComment :: target' := by
  rw [← h.words_eq, heq, h'.words_eq]

theorem Owned.target_last {rule : String} {opts target : List String} (h : Owned rule opts target)
    (hne : target ≠ []) : (words rule).getLast? = target.getLast? := by
  rw [h.words_eq, List.getLast?_append_of_ne_nil _ (by simp)]
  simp [List.getLast?_cons_of_ne_nil, hne]

section
variable {clients : List String} {tunnels : List TunnelPolicy} {b : Build}
  (hclients : clients.Nodup) (hplain : ∀ c ∈ clients, Plain c) (hb : Built clients tunnels b)
  (hnames : ∀ t ∈ tunnels, Plain t.interface)
include hb

theorem Built.plain_destinations : ∀ t ∈ tunnels, ∀ d ∈ destinationsOf t, Plain d :=
  fun t ht _ hd => plain_of_canonical (canonicalPrefixes_canonical (hb.canonical t ht) hd)

include hclients hplain hnames

/-- A family of rules over the tuples repeats no rule when its members show their tuple. -/
theorem Built.tuples_nodup {f : String → String → String → List String}
    (hf : ∀ c d i, Plain c → Plain d → Plain i → (f c d i).Nodup)
    (hinj : ∀ c d i c' d' i', Plain c → Plain d → Plain i → Plain c' → Plain d' → Plain i' →
      ∀ x, x ∈ f c d i → x ∈ f c' d' i' → c = c' ∧ d = d' ∧ i = i') :
    (tunnels.flatMap fun t => (clients ×ˢ destinationsOf t).flatMap fun x =>
      f x.1 x.2 t.interface).Nodup := by
  have hdest := hb.plain_destinations
  apply nodup_flatMap_key (·.interface) hb.nodup
  · intro t ht
    apply nodup_flatMap_key id
    · rw [List.map_id]
      exact hclients.product (canonicalPrefixes_nodup (hb.canonical t ht))
    · rintro ⟨c, d⟩ hx
      obtain ⟨hc, hd⟩ := List.mem_product.mp hx
      exact hf c d _ (hplain c hc) (hdest t ht d hd) (hnames t ht)
    · rintro ⟨c, d⟩ hx ⟨c', d'⟩ hx' s hs hs'
      obtain ⟨hc, hd⟩ := List.mem_product.mp hx
      obtain ⟨hc', hd'⟩ := List.mem_product.mp hx'
      obtain ⟨rfl, rfl, -⟩ := hinj c d _ c' d' _ (hplain c hc) (hdest t ht d hd) (hnames t ht)
        (hplain c' hc') (hdest t ht d' hd') (hnames t ht) s hs hs'
      rfl
  · intro t ht u hu s hs hs'
    obtain ⟨⟨c, d⟩, hx, hs⟩ := List.mem_flatMap.mp hs
    obtain ⟨⟨c', d'⟩, hx', hs'⟩ := List.mem_flatMap.mp hs'
    obtain ⟨hc, hd⟩ := List.mem_product.mp hx
    obtain ⟨hc', hd'⟩ := List.mem_product.mp hx'
    exact (hinj c d _ c' d' _ (hplain c hc) (hdest t ht d hd) (hnames t ht) (hplain c' hc')
      (hdest u hu d' hd') (hnames u hu) s hs hs').2.2

theorem Built.nat_nodup : b.nat.Nodup := by
  rw [hb.nat]
  simp only [List.map_eq_flatMap]
  apply hb.tuples_nodup hclients hplain hnames (f := fun c d i => [masqueradeRule c d i])
  · intro c d i _ _ _
    exact List.nodup_singleton _
  · intro c d i c' d' i' hc hd hi hc' hd' hi' x hx hx'
    have hwords := (owned_masquerade hc hd hi).words_inj (owned_masquerade hc' hd' hi')
      ((List.mem_singleton.mp hx).symm.trans (List.mem_singleton.mp hx'))
    simpa using hwords

theorem Built.mangle_nodup : b.mangle.Nodup := by
  rw [hb.mangle]
  simp only [List.map_eq_flatMap]
  apply hb.tuples_nodup hclients hplain hnames (f := fun c d i => [clampRule c d i])
  · intro c d i _ _ _
    exact List.nodup_singleton _
  · intro c d i c' d' i' hc hd hi hc' hd' hi' x hx hx'
    have hwords := (owned_clamp hc hd hi).words_inj (owned_clamp hc' hd' hi')
      ((List.mem_singleton.mp hx).symm.trans (List.mem_singleton.mp hx'))
    simpa using hwords

theorem Built.filter_nodup : b.filter.Nodup := by
  rw [hb.filter]
  have hne : ∀ {c d i c' d' i' : String}, Plain c → Plain d → Plain i → Plain c' → Plain d' →
      Plain i' → forwardRule c d i ≠ returnRule c' d' i' := by
    intro c d i c' d' i' hc hd hi hc' hd' hi' heq
    have hwords := (owned_forward hc hd hi).words_inj (owned_return hc' hd' hi') heq
    simp at hwords
  apply hb.tuples_nodup hclients hplain hnames
    (f := fun c d i => [forwardRule c d i, returnRule c d i])
  · intro c d i hc hd hi
    simpa using hne hc hd hi hc hd hi
  · intro c d i c' d' i' hc hd hi hc' hd' hi' x hx hx'
    simp only [List.mem_cons, List.not_mem_nil, or_false] at hx hx'
    rcases hx with rfl | rfl <;> rcases hx' with heq | heq
    · have hwords := (owned_forward hc hd hi).words_inj (owned_forward hc' hd' hi') heq
      simpa using hwords
    · exact absurd heq (hne hc hd hi hc' hd' hi')
    · exact absurd heq.symm (hne hc' hd' hi' hc hd hi)
    · have hwords := (owned_return hc hd hi).words_inj (owned_return hc' hd' hi') heq
      simp only [List.cons_append, List.cons.injEq, true_and, and_true] at hwords
      exact ⟨hwords.2.1, hwords.1, hwords.2.2⟩

omit hb hnames in
theorem terminalDrops_nodup : (terminalDrops clients).Nodup := by
  apply nodup_flatMap_key id
  · rwa [List.map_id]
  · intro c hc
    have hne : sourceDropRule c ≠ targetDropRule c := by
      intro heq
      have hwords := (owned_sourceDrop (hplain c hc)).words_inj (owned_targetDrop (hplain c hc)) heq
      simp at hwords
    simpa using hne
  · intro c hc d hd x hx hx'
    simp only [List.mem_cons, List.not_mem_nil, or_false] at hx hx'
    rcases hx with rfl | rfl <;> rcases hx' with heq | heq
    · have hwords := (owned_sourceDrop (hplain c hc)).words_inj (owned_sourceDrop (hplain d hd)) heq
      simpa using hwords
    · have hwords := (owned_sourceDrop (hplain c hc)).words_inj (owned_targetDrop (hplain d hd)) heq
      simp at hwords
    · have hwords := (owned_targetDrop (hplain c hc)).words_inj (owned_sourceDrop (hplain d hd)) heq
      simp at hwords
    · have hwords := (owned_targetDrop (hplain c hc)).words_inj (owned_targetDrop (hplain d hd)) heq
      simpa using hwords

omit hclients hplain in
theorem Built.destinationDrops_nodup : b.destinationDrops.Nodup := by
  have hdest := hb.plain_destinations
  rw [hb.drops]
  apply nodup_flatMap_key (·.interface) hb.nodup
  · intro t ht
    apply (canonicalPrefixes_nodup (hb.canonical t ht)).map_on
    intro d hd d' hd' heq
    have hwords := (owned_destinationDrop (hdest t ht d hd) (hnames t ht)).words_inj
      (owned_destinationDrop (hdest t ht d' hd') (hnames t ht)) heq
    simpa using hwords
  · intro t ht u hu x hx hx'
    obtain ⟨d, hd, rfl⟩ := List.mem_map.mp hx
    obtain ⟨d', hd', heq⟩ := List.mem_map.mp hx'
    have hwords := (owned_destinationDrop (hdest t ht d hd) (hnames t ht)).words_inj
      (owned_destinationDrop (hdest u hu d' hd') (hnames u hu)) heq.symm
    simp only [List.cons_append, List.cons.injEq, true_and, and_true] at hwords
    exact hwords.2

end

/-- Rules with different targets differ. -/
theorem Owned.disjoint {l m : List String} {t u : List String}
    (hl : ∀ x ∈ l, ∃ opts, Owned x opts t) (hm : ∀ x ∈ m, ∃ opts, Owned x opts u)
    (ht : t ≠ []) (hu : u ≠ []) (hne : t.getLast? ≠ u.getLast?) : l.Disjoint m := by
  intro x hx hx'
  obtain ⟨opts, ho⟩ := hl x hx
  obtain ⟨opts', ho'⟩ := hm x hx'
  exact hne ((ho.target_last ht).symm.trans (ho'.target_last hu))

theorem compile_nodup {policy : Policy} {r : Ruleset} (h : compile policy = .ok r)
    (hnames : ∀ t ∈ policy.tunnels, interfaceNameOk t.interface = true) :
    ∀ c ∈ r.chains, c.rules.Nodup := by
  obtain ⟨clients, tunnels, b, hclients, hperm, hb, rfl⟩ := compile_eq_ok h
  have hnodup := canonicalPrefixes_nodup hclients
  have hplain : ∀ c ∈ clients, Plain c :=
    fun c hc => plain_of_canonical (canonicalPrefixes_canonical hclients hc)
  have hiface : ∀ t ∈ tunnels, Plain t.interface :=
    fun t ht => plain_of_name (hnames t (hperm.mem_iff.mp ht))
  have hdest := hb.plain_destinations
  have haccept : ∀ x ∈ sortStrings b.filter, ∃ opts, Owned x opts ["-j", "ACCEPT"] := by
    intro x hx
    simp only [mem_sortStrings, hb.filter, List.mem_flatMap, List.mem_cons, List.not_mem_nil,
      or_false] at hx
    obtain ⟨t, ht, y, hy, rfl | rfl⟩ := hx
    · obtain ⟨hc, hd⟩ := List.mem_product.mp hy
      exact ⟨_, owned_forward (hplain _ hc) (hdest t ht _ hd) (hiface t ht)⟩
    · obtain ⟨hc, hd⟩ := List.mem_product.mp hy
      exact ⟨_, owned_return (hplain _ hc) (hdest t ht _ hd) (hiface t ht)⟩
  have hclient : ∀ x ∈ terminalDrops clients, ∃ c, Plain c ∧
      (Owned x ["-s", c] ["-j", "DROP"] ∨ Owned x ["-d", c] ["-j", "DROP"]) := by
    intro x hx
    simp only [terminalDrops, List.mem_flatMap, List.mem_cons, List.not_mem_nil, or_false] at hx
    obtain ⟨c, hc, rfl | rfl⟩ := hx
    · exact ⟨c, hplain c hc, .inl (owned_sourceDrop (hplain c hc))⟩
    · exact ⟨c, hplain c hc, .inr (owned_targetDrop (hplain c hc))⟩
  have hrouted : ∀ x ∈ sortStrings b.destinationDrops, ∃ d i,
      Owned x ["-d", d, "-o", i] ["-j", "DROP"] := by
    intro x hx
    simp only [mem_sortStrings, hb.drops, List.mem_flatMap, List.mem_map] at hx
    obtain ⟨t, ht, d, hd, rfl⟩ := hx
    exact ⟨d, _, owned_destinationDrop (hdest t ht d hd) (hiface t ht)⟩
  have hdrops : (terminalDrops clients).Disjoint (sortStrings b.destinationDrops) := by
    intro x hx hx'
    obtain ⟨c, -, ho⟩ := hclient x hx
    obtain ⟨d, i, ho'⟩ := hrouted x hx'
    rcases ho with ho | ho
    · have hwords := ho.words_inj ho' rfl
      simp at hwords
    · have hwords := ho.words_inj ho' rfl
      simp at hwords
  have hlast : ∀ x ∈ terminalDrops clients ++ sortStrings b.destinationDrops,
      ∃ opts, Owned x opts ["-j", "DROP"] := by
    intro x hx
    rcases List.mem_append.mp hx with hx | hx
    · obtain ⟨c, -, ho | ho⟩ := hclient x hx
      · exact ⟨_, ho⟩
      · exact ⟨_, ho⟩
    · obtain ⟨d, i, ho⟩ := hrouted x hx
      exact ⟨_, ho⟩
  simp only [assemble, List.forall_mem_cons, List.not_mem_nil, false_implies, implies_true,
    and_true, sortStrings_nodup]
  refine ⟨?_, hb.nat_nodup hnodup hplain hiface, hb.mangle_nodup hnodup hplain hiface⟩
  rw [List.append_assoc]
  apply List.Nodup.append
  · exact sortStrings_nodup.mpr (hb.filter_nodup hnodup hplain hiface)
  · exact (terminalDrops_nodup hnodup hplain).append
      (sortStrings_nodup.mpr (hb.destinationDrops_nodup hiface)) hdrops
  · exact Owned.disjoint haccept hlast (by decide) (by decide) (by decide)

/-! ## Tiers -/

theorem loadChain_eq_mapM (texts : List String) : loadChain texts = texts.mapM parseRule := by
  induction texts with
  | nil => rfl
  | cons s texts ih =>
    rw [List.mapM_cons, ← ih]
    cases hs : parseRule s with
    | none => simp [loadChain, hs]
    | some r =>
      by_cases hall : texts.all fun s => (parseRule s).isSome
      · simp [loadChain, hs, hall]
      · simp [loadChain, hs, hall]

/-- Reordering the texts reorders the rules. -/
theorem loadChain_perm {l m : List String} (h : m.Perm l) {rules : List Iptables.Rule}
    (hl : loadChain l = some rules) : ∃ rs, loadChain m = some rs ∧ rs.Perm rules := by
  rw [loadChain, Option.ite_none_right_eq_some] at hl
  obtain ⟨hall, hl⟩ := hl
  rw [← Option.some.inj hl]
  refine ⟨_, loadChain_eq fun s hs => ?_, h.filterMap _⟩
  exact List.all_eq_true.mp hall s (h.mem_iff.mp hs)

theorem tiered_append {l m : List String} {t u : Target} (ht : t ≠ .clampMss)
    (htr : t.refuses = false) (hu : u.refuses = true) (hl : Uniform l t) (hm : Uniform m u) :
    ∃ tiers, loadChain (l ++ m) = some tiers ∧ Tiered tiers := by
  refine ⟨_, loadChain_eq ?_, .inr ⟨t, u, _, _, List.filterMap_append, ht, htr, hu, hl.target,
    hm.target⟩⟩
  intro s hs
  rcases List.mem_append.mp hs with hs | hs
  · exact hl.isSome s hs
  · exact hm.isSome s hs

theorem compile_tiered {policy : Policy} {r : Ruleset} (h : compile policy = .ok r)
    (hnames : ∀ t ∈ policy.tunnels, interfaceNameOk t.interface = true) :
    ∀ c ∈ r.chains, ∃ tiers, loadChain c.rules = some tiers ∧ Tiered tiers := by
  obtain ⟨clients, tunnels, b, hclients, hperm, hb, rfl⟩ := compile_eq_ok h
  simp only [assemble, List.forall_mem_cons, List.not_mem_nil, false_implies, implies_true,
    and_true]
  refine ⟨?_, ?_, ?_⟩
  · rw [List.append_assoc]
    exact tiered_append (by decide) rfl rfl (accept_block hclients hperm hb hnames).1
      (drop_block hclients hperm hb hnames).1
  · have hmem : ∀ s, s ∈ sortStrings b.nat ↔ s ∈ tupleRules clients tunnels masqueradeRule := by
      intro s
      rw [mem_sortStrings, hb.nat, tupleRules]
    have hu := (tuple_block hclients hperm hb hnames reads_masqueradeRule).1.congr hmem
    have hnone : Uniform [] .drop := by simp [Uniform]
    simpa using tiered_append (by decide) rfl rfl hu hnone
  · have hmem : ∀ s, s ∈ sortStrings b.mangle ↔ s ∈ tupleRules clients tunnels clampRule := by
      intro s
      rw [mem_sortStrings, hb.mangle, tupleRules]
    have hu := (tuple_block hclients hperm hb hnames reads_clampRule).1.congr hmem
    exact ⟨_, loadChain_eq hu.isSome, .inl hu.target⟩

/-! ## The guard -/

/-- In a sorted list equal entries are neighbours. -/
theorem nodup_of_sorted {l : List String} (hsorted : l.Pairwise (· ≤ ·))
    (hchain : l.IsChain (· ≠ ·)) : l.Nodup := by
  induction l with
  | nil => exact List.nodup_nil
  | cons s l ih =>
    rw [List.pairwise_cons] at hsorted
    refine List.nodup_cons.mpr ⟨?_, ih hsorted.2 hchain.tail⟩
    intro hs
    cases l with
    | nil => cases hs
    | cons t l =>
      have hne : s ≠ t := hchain.rel
      have hts : t ≤ s := by
        rcases List.mem_cons.mp hs with rfl | hs
        · exact absurd rfl hne
        · exact (List.pairwise_cons.mp hsorted.2).1 s hs
      exact hne (String.le_antisymm (hsorted.1 t (by simp)) hts)

/-- An accepted guard chain: the loopback rule and one rule for each of differently named
guards, or nothing. -/
theorem compileEgressGuard_eq_ok {guards : List MarkGuard} {chain : Chain}
    (h : compileEgressGuard guards = .ok chain) :
    ∃ sorted : List MarkGuard, sorted.Perm guards ∧ (sorted.map (·.interface)).Nodup ∧
      chain = outputChainWith
        (if guards = [] then [] else loopbackRule :: sorted.map guardRule) := by
  unfold compileEgressGuard at h
  split at h
  · rename_i hnil
    exact ⟨[], by simp [hnil], by simp, by rw [if_pos hnil]; exact (Except.ok.inj h).symm⟩
  · rename_i hne
    simp only [bind_eq_ok, pure_eq_ok] at h
    obtain ⟨acc, hacc, rfl⟩ := h
    have hperm :=
      List.perm_insertionSort (fun g g' : MarkGuard => g.interface ≤ g'.interface) guards
    -- every guard differs from the one sorted just before it
    obtain ⟨hrules, -, hchain⟩ := foldlM_ok (f := appendGuard)
      (P := fun done acc => acc.1 = loopbackRule :: done.map guardRule ∧
        acc.2 = done.getLast?.map (·.interface) ∧
        (done.map (·.interface)).IsChain (· ≠ ·)) ⟨rfl, rfl, .nil⟩ (by
        rintro done g ⟨rules, prev⟩ acc' ⟨rfl, rfl, hchain⟩ hg
        unfold appendGuard at hg
        simp only [bind_eq_ok, pure_eq_ok, require_eq_ok, decide_eq_true_eq] at hg
        obtain ⟨_, -, _, hprev, _, -, rfl⟩ := hg
        refine ⟨by simp, by simp, ?_⟩
        rw [List.map_append, List.map_singleton, List.isChain_append]
        refine ⟨hchain, .singleton _, ?_⟩
        intro x hx y hy
        simp only [List.head?_cons, Option.mem_def, Option.some.injEq] at hy
        rw [List.getLast?_map] at hx
        rintro rfl
        exact hprev (hx.trans (congrArg some hy.symm))) hacc
    refine ⟨_, hperm, ?_, by rw [if_neg hne, hrules]⟩
    have hsorted : ((guards.insertionSort fun g g' => g.interface ≤ g'.interface).map
        (·.interface)).Pairwise (· ≤ ·) := by
      rw [List.pairwise_map]
      exact List.pairwise_insertionSort _ guards
    exact nodup_of_sorted hsorted hchain

/-- What the compilers guarantee about the rules of a ruleset. -/
structure Ruleset.Shaped (r : Ruleset) : Prop where
  compiled : r.Compiled
  nodup : ∀ c ∈ r.chains, c.rules.Nodup
  tiered : ∀ c ∈ r.chains, ∃ tiers, loadChain c.rules = some tiers ∧ Tiered tiers

theorem guard_shaped {sorted : List MarkGuard}
    (hnames : ∀ g ∈ sorted, interfaceNameOk g.interface = true)
    (hnodup : (sorted.map (·.interface)).Nodup) :
    Ruleset.Shaped ⟨[outputChainWith (loopbackRule :: sorted.map guardRule)]⟩ := by
  have hplain : ∀ g ∈ sorted, Plain g.interface := fun g hg => plain_of_name (hnames g hg)
  have howned : ∀ g ∈ sorted, _ := fun g hg => owned_guard (hplain g hg)
  have hone : ∀ {P : Chain → Prop}, P (outputChainWith (loopbackRule :: sorted.map guardRule)) →
      ∀ c ∈ [outputChainWith (loopbackRule :: sorted.map guardRule)], P c := by
    intro P h c hc
    rwa [List.mem_singleton.mp hc]
  refine ⟨guard_compiled hplain _ fun _ h => h, hone ?_, hone ?_⟩
  · change (loopbackRule :: sorted.map guardRule).Nodup
    refine List.nodup_cons.mpr ⟨?_, ?_⟩
    · intro hmem
      obtain ⟨g, hg, heq⟩ := List.mem_map.mp hmem
      have hwords := (howned g hg).words_inj owned_loopback heq
      simp at hwords
    · apply List.Nodup.map_on _ (List.Nodup.of_map _ hnodup)
      intro g hg g' hg' heq
      have hwords := (howned g hg).words_inj (howned g' hg') heq
      simp only [List.cons_append, List.cons.injEq, true_and] at hwords
      exact List.inj_on_of_nodup_map hnodup hg hg' hwords.1
  · have hlo : ∀ s, s ∈ [loopbackRule] ↔ ∃ u : Unit, True ∧ s = loopbackRule := by simp
    have hguards : ∀ s, s ∈ sorted.map guardRule ↔ ∃ g, g ∈ sorted ∧ s = guardRule g := by
      simp [eq_comm]
    exact tiered_append (l := [loopbackRule]) (by decide) rfl rfl
      (uniform_of_reads _ _ _ hlo fun _ _ => reads_loopbackRule)
      (uniform_of_reads _ _ _ hguards fun g hg => reads_guardRule (hnames g hg))

theorem Produced.shaped {r : Ruleset} (h : Produced r) : r.Shaped := by
  rcases h with ⟨policy, h, hnames⟩ | ⟨guards, chain, h, hnames, rfl⟩
  · exact ⟨compile_compiled h hnames, compile_nodup h hnames, compile_tiered h hnames⟩
  · obtain ⟨sorted, hperm, hnodup, rfl⟩ := compileEgressGuard_eq_ok h
    split
    · refine ⟨@guard_compiled [] (by simp) [] (by simp), ?_, ?_⟩
      · simp [outputChainWith]
      · simp only [List.forall_mem_singleton]
        exact ⟨[], rfl, .inl (by simp)⟩
    · exact guard_shaped (fun g hg => hnames g (hperm.mem_iff.mp hg)) hnodup

end SakhtarWg.Firewall
