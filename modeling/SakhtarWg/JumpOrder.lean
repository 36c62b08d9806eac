import SakhtarWg.ChainInterruption
import SakhtarWg.FirewallDrift
import SakhtarWg.HostEval

/-!
# Where an install leaves the jump

An install puts a jump on top of a hook that has none. From a hook that has some it
deletes all but one, each time the first that is written like the daemon's own, and
leaves the last one where it is.
-/

namespace SakhtarWg
open Text Fallible Iptables Firewall Program

/-! ## Deleting copies -/

section
variable {α : Type} {p : α → Bool} {j : α}

/-- Only copies of `j` stand above the marked element that is left when all marked ones but one
are deleted. -/
def Unobstructed (p : α → Bool) (j : α) (l : List α) : Prop :=
  l.countP p = 0 ∨ ∃ copies kept below, l = List.replicate copies j ++ kept :: below ∧
    p kept = true ∧ ∀ x ∈ below, p x = true → x = j ∧ kept ≠ j

theorem filter_of_countP {l : List α} (h : l.countP p = 0) : l.filter (fun x => !p x) = l := by
  rw [List.filter_eq_self]
  intro x hx
  simpa using List.countP_eq_zero.mp h x hx

theorem unobstructed_cons_copy (hj : p j = true) {l : List α} (hl : l.countP p ≠ 0) :
    Unobstructed p j (j :: l) ↔ Unobstructed p j l := by
  have hcount : (j :: l).countP p ≠ 0 := by simp [List.countP_cons_of_pos hj]
  simp only [Unobstructed, hl, hcount, false_or]
  constructor
  · rintro ⟨copies, kept, below, heq, hkept, hbelow⟩
    cases copies with
    | zero =>
      -- the copy at the head cannot be the one that stays, for there is another below it
      obtain ⟨rfl, rfl⟩ := List.cons_eq_cons.mp heq
      obtain ⟨x, hx, hpx⟩ := List.countP_pos_iff.mp (Nat.pos_of_ne_zero hl)
      exact absurd rfl (hbelow x hx hpx).2
    | succ copies =>
      rw [List.replicate_succ, List.cons_append] at heq
      exact ⟨copies, kept, below, (List.cons_eq_cons.mp heq).2, hkept, hbelow⟩
  · rintro ⟨copies, kept, below, rfl, hkept, hbelow⟩
    exact ⟨copies + 1, kept, below, rfl, hkept, hbelow⟩

variable [DecidableEq α]

/-- The first `n` copies of `j` are deleted. -/
def eraseCopies (j : α) (n : ℕ) (l : List α) : List α := (fun l => l.erase j)^[n] l

theorem eraseCopies_succ (n : ℕ) (l : List α) :
    eraseCopies j (n + 1) l = eraseCopies j n (l.erase j) := rfl

theorem eraseCopies_succ' (n : ℕ) (l : List α) :
    eraseCopies j (n + 1) l = (eraseCopies j n l).erase j :=
  Function.iterate_succ_apply' _ n l

theorem eraseCopies_cons_ne {x : α} (hx : x ≠ j) (n : ℕ) (l : List α) :
    eraseCopies j n (x :: l) = x :: eraseCopies j n l := by
  induction n generalizing l with
  | zero => rfl
  | succ n ih =>
    rw [eraseCopies_succ, List.erase_cons_tail (by simpa using hx), ih, ← eraseCopies_succ]

theorem count_eraseCopies (n : ℕ) (l : List α) : (eraseCopies j n l).count j = l.count j - n := by
  induction n with
  | zero => rfl
  | succ n ih => rw [eraseCopies_succ', List.count_erase_self, ih, Nat.sub_sub]

variable (hj : p j = true)
include hj

theorem count_le_countP (l : List α) : l.count j ≤ l.countP p := by
  apply List.countP_mono_left
  intro x _ hx
  rw [eq_of_beq hx]
  exact hj

/-- When all marked elements are copies of `j`, deleting that many leaves the others. -/
theorem eraseCopies_all {l : List α} (h : l.countP p ≤ l.count j) :
    eraseCopies j (l.countP p) l = l.filter fun x => !p x := by
  induction l with
  | nil => rfl
  | cons x xs ih =>
    by_cases hx : x = j
    · subst hx
      rw [List.countP_cons_of_pos hj, List.count_cons_self] at h
      rw [List.countP_cons_of_pos hj, eraseCopies_succ, List.erase_cons_head, ih (by omega),
        List.filter_cons_of_neg (by simp [hj])]
    · have hcount := count_le_countP hj xs
      rw [List.count_cons_of_ne (by simpa using hx)] at h
      have hpx : ¬p x = true := by
        intro hpx
        rw [List.countP_cons_of_pos hpx] at h
        omega
      rw [List.countP_cons_of_neg hpx] at h ⊢
      rw [eraseCopies_cons_ne hx, ih h, List.filter_cons_of_pos (by simpa using hpx)]

/-- Deleting all marked elements but one, where enough of them are copies of `j`, leaves a marked
element first and the others in their order exactly when nothing else stood above it. -/
theorem eraseCopies_first_iff {l : List α} (hl : l.countP p ≠ 0)
    (henough : l.countP p - 1 ≤ l.count j) :
    (∃ kept, p kept = true ∧
      eraseCopies j (l.countP p - 1) l = kept :: l.filter fun x => !p x) ↔
      Unobstructed p j l := by
  induction l with
  | nil => exact absurd rfl hl
  | cons x xs ih =>
    by_cases hx : x = j
    · subst hx
      have hfilter : (x :: xs).filter (fun y => !p y) = xs.filter fun y => !p y :=
        List.filter_cons_of_neg (by simp [hj])
      rw [List.countP_cons_of_pos hj, List.count_cons_self] at henough
      rw [List.countP_cons_of_pos hj, Nat.add_sub_cancel, hfilter]
      by_cases hxs : xs.countP p = 0
      · rw [hxs, filter_of_countP hxs]
        have hnone := List.countP_eq_zero.mp hxs
        have hclear : Unobstructed p x (x :: xs) :=
          .inr ⟨0, x, xs, rfl, hj, fun y hy hpy => absurd hpy (hnone y hy)⟩
        exact iff_of_true ⟨x, hj, rfl⟩ hclear
      · obtain ⟨n, hn⟩ := Nat.exists_eq_succ_of_ne_zero hxs
        have hih := ih hxs (by omega)
        rw [hn, Nat.succ_sub_one] at hih
        rw [hn, eraseCopies_succ, List.erase_cons_head, hih, unobstructed_cons_copy hj hxs]
    · rw [List.count_cons_of_ne (by simpa using hx)] at henough
      rw [eraseCopies_cons_ne hx]
      by_cases hpx : p x = true
      · rw [List.countP_cons_of_pos hpx, Nat.add_sub_cancel] at henough ⊢
        rw [eraseCopies_all hj henough, List.filter_cons_of_neg (by simp [hpx])]
        refine iff_of_true ⟨x, hpx, rfl⟩ (.inr ⟨0, x, xs, rfl, hpx, fun y hy hpy => ⟨?_, hx⟩⟩)
        -- as many copies as marked elements: every marked one is a copy
        by_contra hne
        have hless : xs.count j < xs.countP p := by
          have hy' := List.mem_filter.mpr ⟨hy, hpy⟩
          have hlt : (xs.filter p).count j < (xs.filter p).length :=
            lt_of_le_of_ne List.count_le_length fun heq =>
              hne (List.count_eq_length.mp heq y hy').symm
          rwa [List.count_filter hj, ← List.countP_eq_length_filter] at hlt
        omega
      · refine iff_of_false ?_ ?_
        · rintro ⟨kept, hkept, heq⟩
          rw [(List.cons_eq_cons.mp heq).1] at hpx
          exact hpx hkept
        · rintro (hzero | ⟨copies, kept, below, heq, hkept, -⟩)
          · exact hl hzero
          · cases copies with
            | zero => exact hpx ((List.cons_eq_cons.mp heq).1 ▸ hkept)
            | succ copies => exact hx (List.cons_eq_cons.mp heq).1

end

/-! ## The hook of a chain -/

namespace Firewall

/-- The rule of the hook is one of the jumps an inspection counts. -/
def ownedJump (c : Chain) (rule : String) : Bool := jumpLines c [ruleLine c.hook rule] ≠ []

theorem jumpLines_length (c : Chain) (rules : List String) :
    (jumpLines c (rules.map (ruleLine c.hook))).length = rules.countP (ownedJump c) := by
  induction rules with
  | nil => rfl
  | cons rule rules ih =>
    have hone : (jumpLines c [ruleLine c.hook rule]).length ≤ 1 :=
      (List.length_filter_le _ _).trans (List.length_filter_le _ _)
    rw [List.map_cons, ← List.singleton_append, jumpLines_append, List.length_append, ih,
      List.countP_cons, add_comm]
    by_cases hjump : jumpLines c [ruleLine c.hook rule] = []
    · simp [ownedJump, hjump]
    · have := List.length_pos_of_ne_nil hjump
      simp only [ownedJump, hjump, ne_eq, not_false_eq_true, decide_true, if_true]
      omega

theorem Dedicated.ownedJump {c : Chain} (h : Dedicated c) :
    ownedJump c (jumpRule c.comment c.name) = true := by
  simp [Firewall.ownedJump, h.jump.1]

/-- What an install makes of the rules of a hook. -/
def installedHook (c : Chain) (rules : List String) : List String :=
  if rules.countP (ownedJump c) = 0 then jumpRule c.comment c.name :: rules
  else eraseCopies (jumpRule c.comment c.name) (rules.countP (ownedJump c) - 1) rules

/-- The jump is on top and the only one, and the other rules are what they were. -/
theorem installedHook_iff {c : Chain} (h : Dedicated c) {rules : List String}
    (henough : rules.countP (ownedJump c) - 1 ≤ rules.count (jumpRule c.comment c.name)) :
    (∃ jump, ownedJump c jump = true ∧
      installedHook c rules = jump :: rules.filter fun rule => !ownedJump c rule) ↔
      Unobstructed (ownedJump c) (jumpRule c.comment c.name) rules := by
  unfold installedHook
  split
  · rename_i hzero
    rw [filter_of_countP hzero]
    exact iff_of_true ⟨_, h.ownedJump, rfl⟩ (.inl hzero)
  · rename_i hzero
    exact eraseCopies_first_iff h.ownedJump hzero henough

end Firewall

/-! ## Runs -/

/-- Only the hook of the chain differs, and it holds the given rules. -/
def Rehooked (c : Chain) (fw : Tables) (rules : List String) (h : Host) : Prop :=
  h.firewall.lookup (c.table, c.hook) = some rules ∧
    ∀ k, k ≠ (c.table, c.hook) → h.firewall.lookup k = fw.lookup k

theorem Rehooked.insert {c : Chain} {fw : Tables} {rules : List String} {h : Host}
    (hh : Rehooked c fw rules h) {rules' : List String} {h' : Host}
    (heq : h'.firewall = h.firewall.insert (c.table, c.hook) rules') : Rehooked c fw rules' h' := by
  refine ⟨by rw [heq, AList.lookup_insert], ?_⟩
  intro k hk
  rw [heq, AList.lookup_insert_ne hk, hh.2 k hk]

section
variable {n : ℕ} {h : Host} {c : Chain} {rules : List String}

theorem within_eraseJumps (wrap : String → String) (count : ℕ)
    (hrules : h.firewall.lookup (c.table, c.hook) = some rules) :
    Within (fun _ _ => True) n h ((List.replicate count ()).forM fun _ => deleteJump c wrap)
      (fun _ h' => Rehooked c h.firewall (eraseCopies (jumpRule c.comment c.name) count rules) h' ∧
        count ≤ rules.count (jumpRule c.comment c.name)) (fun _ => True) := by
  have hloop := Within.forM (A := fun _ _ => True) (n := n) (h := h) (E := fun _ => True)
    (f := fun _ : Unit => deleteJump c wrap)
    (I := fun done h' =>
      Rehooked c h.firewall (eraseCopies (jumpRule c.comment c.name) done.length rules) h' ∧
        done.length ≤ rules.count (jumpRule c.comment c.name)) (List.replicate count ()) ?_
    ⟨⟨hrules, fun _ _ => rfl⟩, Nat.zero_le _⟩
  · simpa using hloop
  · intro done _ _ _ h₁ hI
    obtain ⟨hhook, hless⟩ := hI
    refine Within.check trivial ?_ fun _ => trivial
    intro _ h₂ hcall
    have hfw := Host.filtered_eq_ok hcall
    simp only [Tables.deleteJump, hhook.1, Option.ite_none_right_eq_some, Option.some.injEq] at hfw
    obtain ⟨hmem, hfw⟩ := hfw
    have hcount := List.count_pos_iff.mpr hmem
    rw [count_eraseCopies] at hcount
    rw [List.length_append, List.length_singleton, eraseCopies_succ']
    exact ⟨hhook.insert hfw.symm, by omega⟩

/-- A run that succeeds found the hook, and has left its jump. -/
theorem within_installedHook {i : ChainInspection}
    (hjumps : i.ownedJumps = (hookJumps h.firewall i.chain).length) :
    Within (fun _ _ => True) n h (installJump i)
      (fun _ h' => ∃ rules, h.firewall.lookup (i.chain.table, i.chain.hook) = some rules ∧
        Rehooked i.chain h.firewall (installedHook i.chain rules) h' ∧
        rules.countP (ownedJump i.chain) - 1 ≤
          rules.count (jumpRule i.chain.comment i.chain.name))
      (fun _ => True) := by
  unfold installJump
  cases hrules : h.firewall.lookup (i.chain.table, i.chain.hook) with
  | none =>
    have hzero : hookJumps h.firewall i.chain = [] := by
      simp [hookJumps, Tables.listRules, hrules, jumpLines, ruleLines]
    rw [if_pos (by rw [hjumps, hzero, List.length_nil])]
    refine Within.check trivial ?_ fun _ => trivial
    intro _ h' hcall
    have hfw := Host.filtered_eq_ok hcall
    simp [Tables.insertJump, hrules] at hfw
  | some rules =>
    rw [hookJumps_of_lookup hrules, jumpLines_length] at hjumps
    rw [hjumps]
    split
    · rename_i hzero
      refine Within.check trivial ?_ fun _ => trivial
      intro _ h' hcall
      have hfw := Host.filtered_eq_ok hcall
      simp only [Tables.insertJump, hrules] at hfw
      split at hfw
      · rename_i hsome _
        cases hsome
        refine ⟨rules, rfl, ?_, by omega⟩
        rw [installedHook, if_pos hzero]
        exact Rehooked.insert ⟨hrules, fun _ _ => rfl⟩ (Option.some.inj hfw).symm
      · cases hfw
    · rename_i hzero
      apply (within_eraseJumps _ _ hrules).mono
      · intro _ h' hdone
        refine ⟨rules, rfl, ?_, hdone.2⟩
        rw [installedHook, if_neg hzero]
        exact hdone.1
      · exact fun _ hE => hE

end

section
variable {r : Ruleset} {n : ℕ} {h : Host} {inspections : List ChainInspection}

/-- An inspection lists the chains in their order with the jumps it counted. -/
theorem inspected_jumps (hin : ((inspectFirewallOwnership r).eval h).1 = .ok inspections) :
    inspections.map (·.chain) = r.chains ∧
      ∀ i ∈ inspections, i.ownedJumps = (hookJumps h.firewall i.chain).length := by
  rw [inspectFirewallOwnership_eval] at hin
  constructor
  · rw [← List.map_id r.chains]
    apply map_of_mapM_ok _ hin
    intro c _ i hok
    obtain ⟨-, -, -, rfl⟩ := inspectTables_eq_ok.mp hok
    rfl
  · intro i hi
    obtain ⟨c, -, hok⟩ := mem_of_mapM_ok hin i hi
    obtain ⟨-, -, -, rfl⟩ := inspectTables_eq_ok.mp hok
    rfl

theorem within_installJump_any (i : ChainInspection) :
    Within (fun _ _ => True) n h (installJump i) (fun _ _ => True) (fun _ => True) := by
  unfold installJump
  split
  · exact Within.check trivial (fun _ _ _ => trivial) fun _ => trivial
  · apply Within.forM (I := fun _ _ => True) _ _ trivial
    intro _ _ _ _ _ _
    exact Within.check trivial (fun _ _ _ => trivial) fun _ => trivial

/-- The hooks of the chains in `done` are installed, the others are as they were. -/
def HooksInstalled (r : Ruleset) (fw : Tables) (done : List Chain) (h : Host) : Prop :=
  ∀ c ∈ r.chains, if c ∈ done then
      ∃ rules, fw.lookup (c.table, c.hook) = some rules ∧
        h.firewall.lookup (c.table, c.hook) = some (installedHook c rules) ∧
        rules.countP (ownedJump c) - 1 ≤ rules.count (jumpRule c.comment c.name)
    else h.firewall.lookup (c.table, c.hook) = fw.lookup (c.table, c.hook)

/-- Installing the jump of one more chain. -/
theorem HooksInstalled.step (hr : r.Compiled) {fw : Tables} {done : List Chain}
    (hdone : HooksInstalled r fw done h) {i : ChainInspection} (hi : i.chain ∈ r.chains)
    (hnew : i.chain ∉ done) (hjumps : i.ownedJumps = (hookJumps fw i.chain).length) :
    Within (fun _ _ => True) n h (installJump i)
      (fun _ h' => HooksInstalled r fw (done ++ [i.chain]) h') (fun _ => True) := by
  have hhook := hdone i.chain hi
  rw [if_neg hnew] at hhook
  apply (within_installedHook (hjumps.trans (by rw [hookJumps_congr hhook]))).mono
  · rintro _ h' ⟨rules, hrules, hrehooked, hless⟩ c hc
    by_cases hsame : c = i.chain
    · subst hsame
      rw [if_pos (by simp)]
      exact ⟨rules, hhook.symm.trans hrules, hrehooked.1, hless⟩
    · have hkey : (c.table, c.hook) ≠ (i.chain.table, i.chain.hook) := by
        intro heq
        exact hsame (hr.eq_of_table hc hi (Prod.ext_iff.mp heq).1)
      have hbefore := hdone c hc
      rw [← hrehooked.2 _ hkey] at hbefore
      simpa [hsame] using hbefore
  · exact fun _ hE => hE

/-- A successful install leaves every hook installed. -/
theorem within_hooksInstalled (hr : r.Compiled)
    (hin : ((inspectFirewallOwnership r).eval h).1 = .ok inspections) :
    Within (fun _ _ => True) n h (installOwnedChains r inspections)
      (fun _ h' => HooksInstalled r h.firewall r.chains h') (fun _ => True) := by
  obtain ⟨hchains, hjumps⟩ := inspected_jumps hin
  have hnodup : (inspections.map (·.chain)).Nodup := hchains ▸ hr.tables.of_map
  apply Within.bind (P := fun _ h' => HooksInstalled r h.firewall [] h')
  · refine Within.check trivial ?_ fun _ => trivial
    intro _ h' hcall c hc
    have hfw := Host.filtered_eq_ok hcall
    rw [Tables.restore_ruleset _ hr.printable] at hfw
    rw [if_neg (by simp), ← Option.some.inj hfw, hr.lookup_hook _ hc]
  · intro _ h' hinit
    apply Within.bind (Within.collectAll
      (I := fun done h' => HooksInstalled r h.firewall (done.map (·.chain)) h')
      (E := fun _ => True) inspections ?_ ?_ hinit)
    · rintro errs h'' (⟨rfl, hdone⟩ | ⟨hne, -⟩)
      · rw [hchains] at hdone
        exact Within.ofExcept (fun _ _ => hdone) fun _ _ => trivial
      · apply Within.ofExcept
        · intro _ hok
          simp [joinErrors, hne] at hok
        · exact fun _ _ => trivial
    · intro done i todo hl h₁ hdone
      rw [List.map_append, List.map_singleton]
      refine HooksInstalled.step hr hdone ?_ ?_ (hjumps i (by simp [hl]))
      · rw [← hchains]
        exact List.mem_map_of_mem (by simp [hl])
      · rw [hl, List.map_append, List.map_cons] at hnodup
        exact (List.nodup_middle.mp hnodup).notMem ∘ List.mem_append_left _
    · intro i _ h₁ _
      exact within_installJump_any i

end

/-- The guarded host passes its inspection when the jumps of the hook are all marked. -/
theorem guardedHost_inspected {hook jumps : List String} {n : ℕ}
    (hhook : jumpLines soleChain (hook.map (ruleLine soleChain.hook)) = jumps)
    (hmarked : ∀ line ∈ jumps, hasComment line soleChain.comment = true)
    (hcount : jumps.length = n) :
    ((inspectFirewallOwnership ⟨[soleChain]⟩).eval (guardedHost soleChain.rules hook)).1 =
      .ok [⟨soleChain, true, 2, n⟩] := by
  have howned := soleChain_produced.shaped.compiled.owned soleChain (by simp)
  have hbody := guardedHost_body soleChain.rules hook
  have hlines := bodyLines_owned hbody howned
  have hjumps := hookJumps_of_lookup (guardedHost_hook soleChain.rules hook)
  have hok : inspectTables (guardedHost soleChain.rules hook).firewall soleChain =
      .ok ⟨soleChain, true, 2, n⟩ := by
    rw [inspectTables_eq_ok, hlines, hjumps, hhook, hbody, hcount, List.length_map]
    refine ⟨fun line hline => ?_, hmarked, ?_, rfl⟩
    · obtain ⟨rule, hrule, rfl⟩ := List.mem_map.mp hline
      exact (howned rule hrule).ruleIsOwned_line soleChain.name
    · rintro ⟨-, hempty, -⟩
      cases List.map_eq_nil_iff.mp hempty
  rw [inspectFirewallOwnership_eval]
  show List.mapM _ [soleChain] = _
  rw [List.mapM_cons, hok]
  rfl

/-- Copies that are there can be deleted. -/
theorem eraseJumps_ok {c : Chain} (wrap : String → String) {count : ℕ} {h : Host}
    {rules : List String} (hrules : h.firewall.lookup (c.table, c.hook) = some rules)
    (hcount : count ≤ rules.count (jumpRule c.comment c.name)) :
    ∃ h', ((List.replicate count ()).forM fun _ => deleteJump c wrap).eval h = (.ok (), h') ∧
      Rehooked c h.firewall (eraseCopies (jumpRule c.comment c.name) count rules) h' := by
  induction count generalizing h rules with
  | zero => exact ⟨h, rfl, hrules, fun _ _ => rfl⟩
  | succ count ih =>
    have hmem : jumpRule c.comment c.name ∈ rules := List.count_pos_iff.mp (by omega)
    let fw := h.firewall.insert (c.table, c.hook) (rules.erase (jumpRule c.comment c.name))
    have hcall : h.call (.deleteJump c.table c.hook c.comment c.name) =
        (.ok (), { h with firewall := fw }) := by
      change h.filtered _ (h.firewall.deleteJump _ _ _ _) = _
      rw [Tables.deleteJump, hrules]
      dsimp only
      rw [if_pos hmem]
      rfl
    have hspare : count ≤ (rules.erase (jumpRule c.comment c.name)).count
        (jumpRule c.comment c.name) := by
      rw [List.count_erase_self]
      omega
    obtain ⟨h', hrun, hhook⟩ := @ih { h with firewall := fw } _ (AList.lookup_insert _) hspare
    refine ⟨h', ?_, hhook.1, fun k hk => ?_⟩
    · have hdelete : (deleteJump c wrap).eval h = (.ok (), { h with firewall := fw }) :=
        Net.check_eval hcall
      change (deleteJump c wrap >>= fun _ =>
        (List.replicate count ()).forM fun _ => deleteJump c wrap).eval h = _
      rw [Net.eval_bind_ok hdelete, hrun]
    · rw [hhook.2 k hk]
      exact AList.lookup_insert_ne hk

/-- An install that finds enough of its own jumps to delete succeeds. -/
theorem install_ok {c : Chain} (hr : Ruleset.Compiled ⟨[c]⟩) {h : Host} {hook : List String}
    (hhook : h.firewall.lookup (c.table, c.hook) = some hook) {rules n : ℕ} (hn : n ≠ 0)
    (hcount : n - 1 ≤ hook.count (jumpRule c.comment c.name)) :
    ∃ h', (installOwnedChains ⟨[c]⟩ [⟨c, true, rules, n⟩]).eval h = (.ok (), h') ∧
      h'.firewall.lookup (c.table, c.hook) =
        some (eraseCopies (jumpRule c.comment c.name) (n - 1) hook) := by
  have hcall : h.call (.restore (Ruleset.restoreInput ⟨[c]⟩)) =
      (.ok (), { h with firewall := h.firewall.replace [c] }) := by
    change h.filtered _ (h.firewall.restore _) = _
    rw [Tables.restore_ruleset _ hr.printable]
    rfl
  have hhook' : (h.firewall.replace [c]).lookup (c.table, c.hook) = some hook :=
    (hr.lookup_hook _ (List.mem_singleton_self c)).trans hhook
  obtain ⟨h', hrun, hrehooked⟩ := @eraseJumps_ok c (fun e => "deduplicate " ++ c.table ++
    " jump: " ++ e) _ { h with firewall := h.firewall.replace [c] } _ hhook' hcount
  have hinstall : (installJump ⟨c, true, rules, n⟩).eval
      { h with firewall := h.firewall.replace [c] } = (.ok (), h') := by
    rw [installJump, if_neg hn]
    exact hrun
  have hcollect := Net.collect_eval (installJump ⟨c, true, rules, n⟩)
    { h with firewall := h.firewall.replace [c] }
  rw [hinstall] at hcollect
  have hcollectAll : (Net.collectAll installJump [⟨c, true, rules, n⟩]).eval
      { h with firewall := h.firewall.replace [c] } = (.ok [], h') := by
    unfold Net.collectAll
    rw [Net.eval_bind_ok hcollect]
    rfl
  refine ⟨h', ?_, hrehooked.1⟩
  unfold installOwnedChains runRestore
  rw [Net.eval_bind_ok (Net.check_eval hcall), Net.eval_bind_ok hcollectAll]
  rfl

/-- So does one on the host whose hook holds the given rules. -/
theorem guardedHost_installed {hook : List String} {n : ℕ} (hn : n ≠ 0)
    (hcount : n - 1 ≤ hook.count (jumpRule soleChain.comment soleChain.name)) :
    ((installOwnedChains ⟨[soleChain]⟩ [⟨soleChain, true, 2, n⟩]).run.exec answer
        (guardedHost soleChain.rules hook, [])).1 = .ok () ∧
      ((installOwnedChains ⟨[soleChain]⟩ [⟨soleChain, true, 2, n⟩]).run.exec answer
        (guardedHost soleChain.rules hook, [])).2.1.firewall.lookup ("filter", "OUTPUT") =
        some (eraseCopies (jumpRule soleChain.comment soleChain.name) (n - 1) hook) := by
  obtain ⟨h', heval, hhook⟩ := install_ok soleChain_produced.shaped.compiled
    (guardedHost_hook soleChain.rules hook) hn hcount
  rw [Net.exec_of_eval heval]
  exact ⟨rfl, hhook⟩

theorem soleChain_jump :
    jumpLines soleChain [ruleLine soleChain.hook (jumpRule soleChain.comment soleChain.name)] =
        [ruleLine soleChain.hook (jumpRule soleChain.comment soleChain.name)] ∧
      hasComment (ruleLine soleChain.hook (jumpRule soleChain.comment soleChain.name))
        soleChain.comment = true :=
  (soleChain_produced.shaped.compiled.dedicated soleChain (by simp)).jump

theorem jumpLines_accept : jumpLines soleChain [ruleLine soleChain.hook "-j ACCEPT"] = [] := by
  decide +kernel

theorem ownedJump_accept : ownedJump soleChain "-j ACCEPT" = false := by
  simp [ownedJump, jumpLines_accept]

end SakhtarWg
