import SakhtarWg.Iptables

/-!
# Names

The two name patterns of the configuration and what an admitted interface name
means to the packet filter.
-/

namespace SakhtarWg
open Text Iptables

/-- The class `[A-Za-z0-9_.-]`. -/
def nameChar (c : Char) : Bool :=
  ('A' ≤ c && c ≤ 'Z') || ('a' ≤ c && c ≤ 'z') || ('0' ≤ c && c ≤ '9') ||
    c = '_' || c = '.' || c = '-'

def interfaceNameRE (s : String) : Bool := s ≠ "" && s.toList.all nameChar

def operationalNameRE (s : String) : Bool :=
  s ≠ "" && s.toList.all nameChar && s.toList.length ≤ 64

/-- What `validate` asks of a tunnel name. -/
def interfaceNameOk (s : String) : Bool := byteLen s ≤ 15 && interfaceNameRE s

theorem nameChar_range {c : Char} (h : nameChar c = true) : 32 < c.toNat ∧ c.toNat < 127 := by
  have hle : ∀ a b : Char, a ≤ b ↔ a.toNat ≤ b.toNat := fun a b => Iff.rfl
  simp only [nameChar, Bool.or_eq_true, Bool.and_eq_true, decide_eq_true_eq, hle] at h
  have hval : 'A'.toNat = 65 ∧ 'Z'.toNat = 90 ∧ 'a'.toNat = 97 ∧ 'z'.toNat = 122 ∧
      '0'.toNat = 48 ∧ '9'.toNat = 57 := by decide
  obtain ⟨h1, h2, h3, h4, h5, h6⟩ := hval
  rcases h with ((((h | h) | h) | rfl) | rfl) | rfl
  · omega
  · omega
  · omega
  all_goals decide

theorem nameChar_ne {c d : Char} (h : nameChar c = true) (hd : nameChar d = false) : c ≠ d := by
  rintro rfl
  rw [h] at hd
  cases hd

theorem nameChar_not_blank {c : Char} (h : nameChar c = true) : isBlank c = false := by
  simp [isBlank, nameChar_ne h (d := ' ') (by decide), nameChar_ne h (d := '\t') (by decide),
    nameChar_ne h (d := '\n') (by decide), nameChar_ne h (d := '\x0b') (by decide),
    nameChar_ne h (d := '\x0c') (by decide), nameChar_ne h (d := '\r') (by decide)]

section
variable {s : String} (h : interfaceNameOk s = true)
include h

theorem interfaceNameOk_ne : s ≠ "" := by
  simp only [interfaceNameOk, interfaceNameRE, Bool.and_eq_true, decide_eq_true_eq] at h
  exact h.2.1

theorem interfaceNameOk_chars : ∀ c ∈ s.toList, nameChar c = true := by
  simp only [interfaceNameOk, interfaceNameRE, Bool.and_eq_true, List.all_eq_true] at h
  exact h.2.2

theorem interfaceNameOk_isWord : IsWord s.toList := by
  refine ⟨?_, fun c hc => nameChar_not_blank (interfaceNameOk_chars h c hc)⟩
  simpa using interfaceNameOk_ne h

theorem readIface_name : readIface s = some s := by
  have hlen : byteLen s ≤ 15 := by
    simp only [interfaceNameOk, Bool.and_eq_true, decide_eq_true_eq] at h
    exact h.1
  simp [readIface, interfaceNameOk_ne h, hlen]

/-- No admitted name is a pattern, so matching is equality. -/
theorem ifaceMatches_name (name : String) : ifaceMatches s name = decide (s = name) := by
  unfold ifaceMatches
  split
  · rename_i stem hrev
    have hmem : '+' ∈ s.toList := by
      rw [← List.mem_reverse, hrev]
      simp
    exact absurd (interfaceNameOk_chars h _ hmem) (by decide)
  · rfl

end

end SakhtarWg
