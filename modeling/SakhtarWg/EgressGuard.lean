import Mathlib.Data.List.Pairwise
import SakhtarWg.GatewayPolicy
import SakhtarWg.KernelPlan

/-!
# The egress guard

Allocations accepted by the kernel check give a guard chain that rejects exactly
the marked packets routed anywhere but their own tunnel.
-/

namespace SakhtarWg.Firewall
open Text Fallible Iptables Kernel

/-! ## Reading the guard rules back -/

def rejectTarget : Target := .reject "icmp-port-unreachable"

theorem readMark_markSelector (mark mask : BitVec 32) :
    readMark (markSelector mark mask) = some (mark, mask) := by
  unfold markSelector
  split
  · rename_i h
    rw [readMark_full, h]
    rfl
  · exact readMark_masked mark mask

theorem markSelector_isWord (mark mask : BitVec 32) : IsWord (markSelector mark mask).toList := by
  have hv := hex_isWord mark.toNat
  have hm := hex_isWord mask.toNat
  unfold markSelector
  split
  · exact hv
  · have hl : (hex mark.toNat ++ "/" ++ hex mask.toNat).toList =
        (hex mark.toNat).toList ++ '/' :: (hex mask.toNat).toList := by simp
    rw [hl]
    refine ⟨by simp, fun c hc => ?_⟩
    rcases List.mem_append.mp hc with h | h
    · exact hv.2 c h
    · rcases List.mem_cons.mp h with rfl | h
      · decide
      · exact hm.2 c h

theorem reads_loopbackRule : Reads loopbackRule .return fun p => p.outIface = "lo" := by
  have hlo : interfaceNameOk "lo" = true := by decide
  have hws := (readsWords_owned ["RETURN"] (by decide) rfl).outIface (interfaceNameOk_isWord hlo)
    (readIface_name hlo)
  refine (hws.reads loopbackRule_eq).congr fun p => ?_
  simp [ifaceMatches_name hlo, eq_comm (a := "lo")]

theorem reads_guardRule {g : MarkGuard} (hi : interfaceNameOk g.interface = true) :
    Reads (guardRule g) rejectTarget
      fun p => p.outIface ≠ g.interface ∧ p.mark &&& g.mask = g.mark := by
  have htail := ((readsWords_owned ["REJECT", "--reject-with", "icmp-port-unreachable"] (by decide)
    rfl).mark (markSelector_isWord g.mark g.mask) (readMark_markSelector g.mark g.mask)).module
    (m := "mark") (by decide)
  have hws := htail.notOutIface (interfaceNameOk_isWord hi) (readIface_name hi)
  refine (hws.reads (guardRule_eq g)).congr fun p => ?_
  simp [ifaceMatches_name hi, eq_comm (a := g.interface)]

/-! ## Compiling the guard -/

theorem validInterface_ok {name : String} (h : interfaceNameOk name = true) :
    validInterface name = .ok () := by
  have hbad : [' ', '\t', '\r', '\n', '"', '\''].all (nameChar · = false) = true := by decide
  unfold validInterface
  rw [require_eq_ok, Bool.and_eq_true, decide_eq_true_eq, Bool.not_eq_true']
  refine ⟨interfaceNameOk_ne h, ?_⟩
  rw [containsAny, List.any_eq_false]
  intro c hc hmem
  have := List.all_eq_true.mp hbad c (by simpa using hmem)
  rw [interfaceNameOk_chars h c hc] at this
  cases this

/-- A guard that can select its own traffic. -/
structure MarkGuard.Ok (g : MarkGuard) : Prop where
  name : interfaceNameOk g.interface = true
  mark : g.mark ≠ 0
  mask : g.mask ≠ 0
  own : g.mark &&& g.mask = g.mark

theorem appendGuard_ok {g : MarkGuard} (hg : g.Ok) {acc : List String × Option String}
    (hprev : acc.2 ≠ some g.interface) :
    appendGuard acc g = .ok (acc.1 ++ [guardRule g], some g.interface) := by
  unfold appendGuard
  simp only [bind_eq_ok, pure_eq_ok, require_eq_ok, decide_eq_true_eq]
  exact ⟨(), validInterface_ok hg.name, (), hprev, (), ⟨hg.mark, hg.mask, hg.own⟩, trivial⟩

/-- Distinct valid guards always compile, and the rules are the sorted guards' in order. -/
theorem compileEgressGuard_total (guards : List MarkGuard) (hok : ∀ g ∈ guards, g.Ok)
    (hnodup : (guards.map (·.interface)).Nodup) (hne : guards ≠ []) :
    ∃ sorted : List MarkGuard, sorted.Perm guards ∧
      compileEgressGuard guards =
        .ok (outputChainWith (loopbackRule :: sorted.map guardRule)) := by
  let sorted := guards.insertionSort (·.interface ≤ ·.interface)
  have hperm : sorted.Perm guards := List.perm_insertionSort _ _
  have hnodup' : (sorted.map (·.interface)).Nodup := (hperm.map _).nodup_iff.mpr hnodup
  obtain ⟨acc, hacc, h1, -⟩ := foldlM_total (f := appendGuard) (l := sorted)
    (b := ([loopbackRule], none))
    (P := fun done acc => acc.1 = loopbackRule :: done.map guardRule ∧
      ∀ i, acc.2 = some i → i ∈ done.map (·.interface)) (by simp) (by
      rintro done g rest ⟨rules, prev⟩ hl ⟨rfl, hprev⟩
      have hfresh : prev ≠ some g.interface := by
        intro he
        rw [hl, List.map_append, List.map_cons, List.nodup_append] at hnodup'
        exact hnodup'.2.2 _ (hprev _ he) _ (by simp) rfl
      have hg := hok g (hperm.mem_iff.mp (by simp [hl]))
      exact ⟨_, appendGuard_ok hg hfresh, by simp, by simp⟩)
  refine ⟨sorted, hperm, ?_⟩
  rw [compileEgressGuard, if_neg hne, bind_eq_ok]
  exact ⟨acc, hacc, by rw [h1]; rfl⟩

/-- First-match evaluation of a guard chain. -/
theorem evaluate_guard (sorted : List MarkGuard)
    (hnames : ∀ g ∈ sorted, interfaceNameOk g.interface = true) (p : Packet) :
    ∃ o, evaluate (loopbackRule :: sorted.map guardRule) p = some o ∧
      (o.verdict = some rejectTarget ↔ p.outIface ≠ "lo" ∧
        ∃ g ∈ sorted, p.mark &&& g.mask = g.mark ∧ p.outIface ≠ g.interface) ∧
      (o.verdict = some rejectTarget ∨ o.verdict = some .return ∨ o.verdict = none) := by
  have hlo : ∀ s, s ∈ [loopbackRule] ↔ ∃ u : Unit, True ∧ s = loopbackRule := by simp
  have hguards : ∀ s, s ∈ sorted.map guardRule ↔ ∃ g, g ∈ sorted ∧ s = guardRule g := by
    simp [eq_comm]
  have hr := fun g (hg : g ∈ sorted) => reads_guardRule (hnames g hg)
  have hl := fun (_ : Unit) (_ : True) => reads_loopbackRule
  obtain ⟨o, ho, -, h1, h2, h3⟩ := evaluate_append (by decide) (by decide)
    (uniform_of_reads _ _ _ hlo hl) (uniform_of_reads _ _ _ hguards hr) p
  rw [hits_iff _ _ _ hlo hl] at h1 h2 h3
  rw [hits_iff _ _ _ hguards hr] at h2 h3
  simp only [exists_const, true_and] at h1 h2 h3
  refine ⟨o, ho, ?_⟩
  by_cases hout : p.outIface = "lo"
  · simp [h1 hout, hout, rejectTarget]
  · by_cases hg : ∃ g ∈ sorted, p.mark &&& g.mask = g.mark ∧ p.outIface ≠ g.interface
    · have hg' : ∃ g ∈ sorted, p.outIface ≠ g.interface ∧ p.mark &&& g.mask = g.mark := by
        simpa only [and_comm] using hg
      simp [h2 hout hg', hout, hg]
    · have hg' : ¬∃ g ∈ sorted, p.outIface ≠ g.interface ∧ p.mark &&& g.mask = g.mark := by
        simpa only [and_comm] using hg
      simp [h3 hout hg', hg, rejectTarget]

/-! ## Allocation and guard together -/

def guardOf (a : Allocation) : MarkGuard := ⟨a.name, a.mark, a.mask⟩

theorem selects_own {a : Allocation} (ha : a.Valid) : a.selects a.mark = true := by
  simp [Allocation.selects, ha.own]

theorem not_selects_zero {a : Allocation} (ha : a.Valid) : a.selects 0 = false := by
  simpa [Allocation.selects] using ha.mark.symm

/-- Pairwise disjoint selectors leave at most one tunnel for a mark. -/
theorem selects_unique {l : List Allocation}
    (h : l.Pairwise fun b a => b.Apart a ∧ ¬b.Overlaps a) {a b : Allocation} (ha : a ∈ l)
    (hb : b ∈ l) {p : BitVec 32} (hap : a.selects p = true) (hbp : b.selects p = true) :
    a = b := by
  by_contra hne
  have hsymm : l.Pairwise fun b a => ¬b.Overlaps a := h.imp And.right
  have hcomm : Std.Symm fun b a : Allocation => ¬b.Overlaps a :=
    ⟨fun b a hno ⟨q, h1, h2⟩ => hno ⟨q, h2, h1⟩⟩
  exact hsymm.forall ha hb hne ⟨p, hap, hbp⟩

/-- Overlap is exactly aliasing, and the guard of an accepted list is exact. -/
theorem allocations_guard_exact (l : List Allocation) :
    ((∀ a ∈ l, a.Valid) → l.Pairwise Allocation.Apart →
      ((∃ e, validateAllocations l = .error e) ↔
        ∃ b a, [b, a].Sublist l ∧ ∃ p, b.selects p = true ∧ a.selects p = true) ∧
      ∀ e, validateAllocations l = .error e →
        ∃ b a, [b, a].Sublist l ∧ b.Overlaps a ∧ e = overlapError b a) ∧
    (validateAllocations l = .ok () → (l.map (·.name)).Nodup →
      (∀ a ∈ l, interfaceNameOk a.name = true) →
      ∃ chain, compileEgressGuard (l.map guardOf) = .ok chain ∧
        (∀ p, ∀ a ∈ l, ∀ b ∈ l, a.selects p = true → b.selects p = true → a = b) ∧
        (∀ a ∈ l, ∀ b ∈ l, b.selects a.mark = true ↔ b = a) ∧
        ∀ p, ∃ o, evaluate chain.rules p = some o ∧
          (o.verdict = some rejectTarget ↔ p.outIface ≠ "lo" ∧
            ∃ a ∈ l, a.selects p.mark = true ∧ p.outIface ≠ a.name) ∧
          (o.verdict = some rejectTarget ∨ o.verdict = some .return ∨ o.verdict = none) ∧
          (p.mark = 0 → o.verdict ≠ some rejectTarget)) := by
  constructor
  · intro hvalid happ
    refine ⟨⟨?_, ?_⟩, fun e he => validateAllocations_eq_error hvalid happ he⟩
    · rintro ⟨e, he⟩
      obtain ⟨b, a, hsub, hov, -⟩ := validateAllocations_eq_error hvalid happ he
      exact ⟨b, a, hsub, hov⟩
    · rintro ⟨b, a, hsub, hov⟩
      cases hres : validateAllocations l with
      | error e => exact ⟨e, rfl⟩
      | ok u =>
        have hpair := (validateAllocations_eq_ok hres).2
        exact absurd hov (List.pairwise_iff_forall_sublist.mp hpair hsub).2
  · intro hok hnodup hnames
    obtain ⟨hvalid, hpair⟩ := validateAllocations_eq_ok hok
    have hunique := fun p a ha b hb => selects_unique hpair (p := p) (a := a) (b := b) ha hb
    have hown : ∀ a ∈ l, ∀ b ∈ l, b.selects a.mark = true ↔ b = a := by
      intro a ha b hb
      constructor
      · intro h
        exact hunique a.mark b hb a ha h (selects_own (hvalid a ha))
      · rintro rfl
        exact selects_own (hvalid b hb)
    -- an empty list compiles to an empty chain; otherwise the guards sit behind the loopback rule
    by_cases hne : l = []
    · subst hne
      exact ⟨outputChainWith [], rfl, hunique, hown, fun p =>
        ⟨⟨none, false⟩, rfl, by simp, by simp, by simp⟩⟩
    · obtain ⟨sorted, hperm, hcompile⟩ := compileEgressGuard_total (l.map guardOf)
        (by
          intro g hg
          obtain ⟨a, ha, rfl⟩ := List.mem_map.mp hg
          exact ⟨hnames a ha, (hvalid a ha).mark, (hvalid a ha).mask, (hvalid a ha).own⟩)
        (by simpa [guardOf, Function.comp_def] using hnodup) (by simpa using hne)
      have hmem : ∀ g, g ∈ sorted ↔ ∃ a ∈ l, guardOf a = g := by
        intro g
        rw [hperm.mem_iff, List.mem_map]
      refine ⟨_, hcompile, hunique, hown, fun p => ?_⟩
      obtain ⟨o, ho, hrej, hcases⟩ := evaluate_guard sorted (by
        intro g hg
        obtain ⟨a, ha, rfl⟩ := (hmem g).mp hg
        exact hnames a ha) p
      have hiff : o.verdict = some rejectTarget ↔ p.outIface ≠ "lo" ∧
          ∃ a ∈ l, a.selects p.mark = true ∧ p.outIface ≠ a.name := by
        rw [hrej]
        simp [hmem, guardOf, Allocation.selects]
      refine ⟨o, ho, hiff, hcases, ?_⟩
      intro hzero hreject
      obtain ⟨-, a, ha, hsel, -⟩ := hiff.mp hreject
      rw [hzero, not_selects_zero (hvalid a ha)] at hsel
      cases hsel

/-- Two tunnels, one selected by its second byte only. -/
def pairAllocations : List Allocation :=
  [⟨"wg0", 0x100, 0xff00, 100, 31000⟩, ⟨"wg1", 0x2ff, 0xffffffff, 101, 31001⟩]

/-- A third selector that a mark of the first one satisfies. -/
def aliasedAllocations : List Allocation :=
  pairAllocations ++ [⟨"wg2", 0x7, 0xff, 102, 31002⟩]

theorem allocations_guard_exact_pair :
    (∃ e, validateAllocations aliasedAllocations = .error e) ∧
    ∃ chain, compileEgressGuard (pairAllocations.map guardOf) = .ok chain ∧
      ∃ o, evaluate chain.rules ⟨0, 0, "", "eth0", 0x1107, .new, none⟩ = some o ∧
        o.verdict ≠ some rejectTarget ∧
      ∃ o, evaluate chain.rules ⟨0, 0, "", "eth0", 0x107, .new, none⟩ = some o ∧
        o.verdict = some rejectTarget := by
  have hvalid : ∀ a ∈ aliasedAllocations, a.Valid := by
    simp only [aliasedAllocations, pairAllocations, List.cons_append, List.nil_append,
      List.forall_mem_cons, List.not_mem_nil, false_implies, implies_true, and_true]
    exact ⟨⟨by decide, by decide, by decide, by decide, by decide, by decide⟩,
      ⟨by decide, by decide, by decide, by decide, by decide, by decide⟩,
      ⟨by decide, by decide, by decide, by decide, by decide, by decide⟩⟩
  have happ : aliasedAllocations.Pairwise Allocation.Apart := by
    unfold Allocation.Apart
    decide
  have hover := (allocations_guard_exact aliasedAllocations).1 hvalid happ
  obtain ⟨chain, hchain, -, -, heval⟩ := (allocations_guard_exact pairAllocations).2
    (by decide +kernel) (by decide) (by decide)
  refine ⟨hover.1.mpr ⟨⟨"wg0", 0x100, 0xff00, 100, 31000⟩, ⟨"wg2", 0x7, 0xff, 102, 31002⟩,
    by decide, 0x107, by decide, by decide⟩, chain, hchain, ?_⟩
  obtain ⟨o, ho, hrej, -, -⟩ := heval ⟨0, 0, "", "eth0", 0x1107, .new, none⟩
  obtain ⟨o', ho', hrej', -, -⟩ := heval ⟨0, 0, "", "eth0", 0x107, .new, none⟩
  refine ⟨o, ho, ?_, o', ho', hrej'.mpr (by decide)⟩
  rw [ne_eq, hrej]
  decide

end SakhtarWg.Firewall
