import SakhtarWg.Netip

/-!
# The texts of addresses

The text of an IPv6 address, with its longest run of zero groups written as `::`, is read as
the address it was printed from; and what characters a text that is read can hold.
-/

namespace SakhtarWg.Netip
open Text

/-! ## Groups -/

theorem group_lt (a : BitVec 128) (i : ℕ) : Addr.group a i < 65536 := Nat.mod_lt _ (by norm_num)

theorem ofGroups_group (a : BitVec 128) : ofGroups ((List.range 8).map (Addr.group a)) = a := by
  apply BitVec.eq_of_toNat_eq
  have ha : a.toNat < 340282366920938463463374607431768211456 := a.isLt
  simp only [ofGroups, BitVec.toNat_ofNat, List.range_succ, List.range_zero, List.nil_append,
    List.cons_append, List.map_cons, List.map_nil, List.foldl_cons, List.foldl_nil, Addr.group]
  norm_num
  omega

theorem hexText_toList (g : ℕ) : (hexText g).toList = Nat.toDigits 16 g := String.toList_ofList

theorem hexText_length {g : ℕ} (h : g < 65536) : (Nat.toDigits 16 g).length ≤ 4 := by
  have hone : ∀ n < 16, (Nat.toDigits 16 n).length = 1 := by
    intro n hn
    rw [Nat.toDigits_eq_if (by norm_num), if_pos hn]
    rfl
  have hmore : ∀ n, (Nat.toDigits 16 n).length ≤ (Nat.toDigits 16 (n / 16)).length + 1 := by
    intro n
    rw [Nat.toDigits_eq_if (by norm_num)]
    split
    · simp
    · simp
  have h1 := hmore g
  have h2 := hmore (g / 16)
  have h3 := hmore (g / 16 / 16)
  have h4 := hone (g / 16 / 16 / 16) (by omega)
  omega

theorem hexText_isHexDigit {g : ℕ} {c : Char} (h : c ∈ Nat.toDigits 16 g) :
    isHexDigit c = true := by
  obtain ⟨d, hd, rfl⟩ := isDigit_of_mem_toDigits (by norm_num) le_rfl h
  simp [isHexDigit, digitValue_digitChar hd]

/-- The digits of a group end where a colon or nothing follows. -/
theorem span_hexText {g : ℕ} {rest : List Char} (h : rest = [] ∨ rest.head? = some ':') :
    (Nat.toDigits 16 g ++ rest).takeWhile isHexDigit = Nat.toDigits 16 g ∧
      (Nat.toDigits 16 g ++ rest).dropWhile isHexDigit = rest := by
  have hrest : rest.takeWhile isHexDigit = [] ∧ rest.dropWhile isHexDigit = rest := by
    rcases h with rfl | h
    · exact ⟨rfl, rfl⟩
    · obtain ⟨more, rfl⟩ := List.head?_eq_some_iff.mp h
      exact ⟨by simp [isHexDigit, digitValue], by simp [isHexDigit, digitValue]⟩
  have hall : ∀ c ∈ Nat.toDigits 16 g, isHexDigit c = true := fun c hc => hexText_isHexDigit hc
  rw [List.takeWhile_append_of_pos hall, List.dropWhile_append_of_pos hall, hrest.1, hrest.2]
  simp

/-! ## Joined groups -/

theorem joinGroups_singleton (g : ℕ) : (joinGroups [g]).toList = Nat.toDigits 16 g := by
  simp [joinGroups, hexText_toList]

theorem joinGroups_head (g : ℕ) (gs : List ℕ) :
    ∃ c rest, (joinGroups (g :: gs)).toList = c :: rest ∧ c ≠ ':' := by
  obtain ⟨c, rest, hdigits⟩ := List.exists_cons_of_ne_nil (@Nat.toDigits_ne_nil g 16)
  have hc : c ≠ ':' := by
    rintro rfl
    have := @hexText_isHexDigit g ':' (by simp [hdigits])
    simp [isHexDigit, digitValue] at this
  cases gs with
  | nil => exact ⟨c, rest, by rw [joinGroups_singleton, hdigits], hc⟩
  | cons g' gs =>
    exact ⟨c, _, by rw [joinGroups_cons, hexText_toList, hdigits, List.cons_append], hc⟩

/-- A last group. -/
theorem parseGroups_last {g : ℕ} (hg : g < 65536) (room : ℕ) (gs : List ℕ) (e : Option ℕ) :
    parseGroups (room + 1) (Nat.toDigits 16 g) gs e = some (gs ++ [g], e) := by
  have hspan := @span_hexText g [] (.inl rfl)
  rw [List.append_nil] at hspan
  rw [parseGroups, hspan.1, hspan.2, if_neg]
  · rw [readNat_toDigits (by norm_num) le_rfl]
    rfl
  · simp [hexText_length hg, Nat.toDigits_ne_nil]

/-- A group with another one behind it. -/
theorem parseGroups_colon {g : ℕ} (hg : g < 65536) (room : ℕ) {c : Char} (hc : c ≠ ':')
    (more : List Char) (gs : List ℕ) (e : Option ℕ) :
    parseGroups (room + 1) (Nat.toDigits 16 g ++ ':' :: c :: more) gs e =
      parseGroups room (c :: more) (gs ++ [g]) e := by
  have hspan := @span_hexText g (':' :: c :: more) (.inr rfl)
  rw [parseGroups, hspan.1, hspan.2, if_neg]
  · rw [readNat_toDigits (by norm_num) le_rfl]
    simp only [Option.getD_some]
    split <;> simp_all
  · simp [hexText_length hg, Nat.toDigits_ne_nil]

/-- A group with the `::` behind it. -/
theorem parseGroups_ellipsis {g : ℕ} (hg : g < 65536) (room : ℕ) (more : List Char)
    (gs : List ℕ) :
    parseGroups (room + 1) (Nat.toDigits 16 g ++ ':' :: ':' :: more) gs none =
      if more = [] then some (gs ++ [g], some (gs.length + 1))
      else parseGroups room more (gs ++ [g]) (some (gs.length + 1)) := by
  have hspan := @span_hexText g (':' :: ':' :: more) (.inr rfl)
  rw [parseGroups, hspan.1, hspan.2, if_neg]
  · rw [readNat_toDigits (by norm_num) le_rfl]
    simp
  · simp [hexText_length hg, Nat.toDigits_ne_nil]

/-- All groups of a list, at the end of the text. -/
theorem parseGroups_join {groups : List ℕ} (hne : groups ≠ []) (hlt : ∀ g ∈ groups, g < 65536)
    {room : ℕ} (hroom : groups.length ≤ room) (gs : List ℕ) (e : Option ℕ) :
    parseGroups room (joinGroups groups).toList gs e = some (gs ++ groups, e) := by
  induction groups generalizing room gs with
  | nil => exact absurd rfl hne
  | cons g groups ih =>
    obtain ⟨room, rfl⟩ : ∃ n, room = n + 1 := ⟨room - 1, by simp at hroom; omega⟩
    rw [List.forall_mem_cons] at hlt
    cases groups with
    | nil => rw [joinGroups_singleton, parseGroups_last hlt.1]
    | cons g' groups =>
      obtain ⟨c, more, hjoin, hc⟩ := joinGroups_head g' groups
      have hrest := ih (by simp) hlt.2 (Nat.le_of_succ_le_succ hroom) (gs ++ [g])
      rw [hjoin] at hrest
      rw [joinGroups_cons, hexText_toList, hjoin, parseGroups_colon hlt.1 room hc, hrest,
        List.append_assoc, List.singleton_append]

/-- All groups of a list, in front of the `::`. -/
theorem parseGroups_join_ellipsis {groups : List ℕ} (hne : groups ≠ [])
    (hlt : ∀ g ∈ groups, g < 65536) {room : ℕ} (hroom : groups.length ≤ room) (gs : List ℕ)
    (more : List Char) :
    parseGroups room ((joinGroups groups).toList ++ ':' :: ':' :: more) gs none =
      if more = [] then some (gs ++ groups, some (gs ++ groups).length)
      else parseGroups (room - groups.length) more (gs ++ groups) (some (gs ++ groups).length) := by
  induction groups generalizing room gs with
  | nil => exact absurd rfl hne
  | cons g groups ih =>
    obtain ⟨room, rfl⟩ : ∃ n, room = n + 1 := ⟨room - 1, by simp at hroom; omega⟩
    rw [List.forall_mem_cons] at hlt
    cases groups with
    | nil => simp [joinGroups_singleton, parseGroups_ellipsis hlt.1]
    | cons g' groups =>
      obtain ⟨c, rest, hjoin, hc⟩ := joinGroups_head g' groups
      have hrest := ih (by simp) hlt.2 (Nat.le_of_succ_le_succ hroom) (gs ++ [g])
      rw [hjoin, List.cons_append] at hrest
      rw [joinGroups_cons, hexText_toList, hjoin, List.append_assoc, List.cons_append,
        List.cons_append, parseGroups_colon hlt.1 room hc, hrest]
      simp

/-! ## The run of zeros -/

/-- The groups between the two positions are zero. -/
def ZeroBetween (gs : List ℕ) (run : ℕ × ℕ) : Prop :=
  run.1 ≤ run.2 ∧ run.2 ≤ gs.length ∧
    gs = gs.take run.1 ++ List.replicate (run.2 - run.1) 0 ++ gs.drop run.2

theorem zeroBetween_takeWhile (gs : List ℕ) {i : ℕ} (hi : i ≤ gs.length) :
    ZeroBetween gs (i, i + ((gs.drop i).takeWhile (· = 0)).length) := by
  have hle := List.IsPrefix.length_le ( List.takeWhile_prefix (l := gs.drop i) (· = 0))
  rw [List.length_drop] at hle
  have hzeros : (gs.drop i).takeWhile (· = 0) =
      List.replicate ((gs.drop i).takeWhile (· = 0)).length 0 := by
    apply List.eq_replicate_of_mem
    intro g hg
    simpa using List.mem_takeWhile_imp hg
  have hsplit : gs.drop i = List.replicate ((gs.drop i).takeWhile (· = 0)).length 0 ++
      gs.drop (i + ((gs.drop i).takeWhile (· = 0)).length) := by
    rw [← hzeros, ← List.drop_drop]
    exact (List.prefix_iff_eq_append.mp ( List.takeWhile_prefix _)).symm
  refine ⟨by simp, by simp only; omega, ?_⟩
  simp only [Nat.add_sub_cancel_left, List.append_assoc]
  rw [← hsplit, List.take_append_drop]

theorem zeroBetween_zeroRun {gs : List ℕ} (h : gs.length = 8) : ZeroBetween gs (zeroRun gs) := by
  have hloop : ∀ (l : List ℕ) (best : ℕ × ℕ), (∀ i ∈ l, i ≤ gs.length) → ZeroBetween gs best →
      ZeroBetween gs (l.foldl (fun best i =>
        let j := i + ((gs.drop i).takeWhile (· = 0)).length
        if 2 ≤ j - i ∧ best.2 - best.1 < j - i then (i, j) else best) best) := by
    intro l
    induction l with
    | nil => exact fun best _ hbest => hbest
    | cons i l ih =>
      intro best hl hbest
      rw [List.forall_mem_cons] at hl
      apply ih _ hl.2
      dsimp only
      split
      · exact zeroBetween_takeWhile gs hl.1
      · exact hbest
  apply hloop
  · intro i hi
    have := List.mem_range.mp hi
    omega
  · exact ⟨le_rfl, Nat.zero_le _, by simp⟩

/-! ## Reading a printed address -/

/-- The `::` is expanded to the zeros it was printed for. -/
theorem expandGroups_between {gs : List ℕ} (h8 : gs.length = 8) {run : ℕ × ℕ}
    (hrun : ZeroBetween gs run) (hne : run.1 ≠ run.2) :
    expandGroups (gs.take run.1 ++ gs.drop run.2, some run.1) = some gs := by
  obtain ⟨hle, hlen, hsplit⟩ := hrun
  have htake : (gs.take run.1).length = run.1 := by
    rw [List.length_take]
    omega
  have hlength : (gs.take run.1 ++ gs.drop run.2).length = 8 - (run.2 - run.1) := by
    rw [List.length_append, htake, List.length_drop]
    omega
  have hzeros : 8 - (8 - (run.2 - run.1)) = run.2 - run.1 := by omega
  rw [expandGroups, if_pos (by omega), hlength, hzeros, List.take_left' htake,
    List.drop_left' htake, ← hsplit]

/-- A text that starts with `::`. -/
theorem parseIPv6_ellipsis {s : List Char} (hs : s ≠ []) (hzone : '%' ∉ s) :
    parseIPv6 (':' :: ':' :: s) = ((parseGroups 8 s [] (some 0)).bind expandGroups).map
      fun gs => .v6 (ofGroups gs) "" := by
  have hcut : cut '%' (':' :: ':' :: s) = none := (cut_eq_none _ _).mpr (by simp [hzone])
  simp [parseIPv6, hcut]

/-- A text that starts with a group. -/
theorem parseIPv6_group {c : Char} {s : List Char} (hc : c ≠ ':') (hzone : '%' ∉ c :: s) :
    parseIPv6 (c :: s) = ((parseGroups 8 (c :: s) [] none).bind expandGroups).map
      fun gs => .v6 (ofGroups gs) "" := by
  have hcut : cut '%' (c :: s) = none := (cut_eq_none _ _).mpr hzone
  simp [parseIPv6, hcut, hc]

/-- Groups around a `::`. -/
theorem parseIPv6_between {gs : List ℕ} (h8 : gs.length = 8) (hlt : ∀ g ∈ gs, g < 65536)
    {run : ℕ × ℕ} (hrun : ZeroBetween gs run) (hne : run.1 ≠ run.2)
    (hzone : '%' ∉ (joinGroups (gs.take run.1)).toList ++
      ':' :: ':' :: (joinGroups (gs.drop run.2)).toList) :
    parseIPv6 ((joinGroups (gs.take run.1)).toList ++
      ':' :: ':' :: (joinGroups (gs.drop run.2)).toList) = some (.v6 (ofGroups gs) "") := by
  have hexpand := expandGroups_between h8 hrun hne
  have htake : (gs.take run.1).length = run.1 := by
    have := hrun.1.trans hrun.2.1
    rw [List.length_take]
    omega
  have hleft : ∀ g ∈ gs.take run.1, g < 65536 := fun g hg => hlt g (List.mem_of_mem_take hg)
  have hright : ∀ g ∈ gs.drop run.2, g < 65536 := fun g hg => hlt g (List.mem_of_mem_drop hg)
  have hroom : (gs.drop run.2).length ≤ 8 - (gs.take run.1).length := by
    have := hrun.1
    rw [List.length_drop, htake]
    omega
  cases hfront : gs.take run.1 with
  | nil =>
    have hzero : run.1 = 0 := by rw [← htake, hfront]; rfl
    rw [hfront, List.nil_append, hzero] at hexpand
    cases hback : gs.drop run.2 with
    | nil =>
      rw [hback] at hexpand
      have hgroups : gs = List.replicate 8 0 := (Option.some.inj hexpand).symm
      rw [hgroups]
      rfl
    | cons g rest =>
      obtain ⟨c, more, hjoin, -⟩ := joinGroups_head g rest
      have hne' : (joinGroups (gs.drop run.2)).toList ≠ [] := by rw [hback, hjoin]; simp
      have hparse := parseGroups_join (by simp [hback]) hright (hroom.trans (Nat.sub_le _ _)) []
        (some 0)
      rw [List.nil_append] at hparse
      rw [← hback, show (joinGroups []).toList = [] from rfl, List.nil_append,
        parseIPv6_ellipsis hne' (by simpa using fun h => hzone (by simp [h])), hparse,
        Option.bind_some, hexpand]
      rfl
  | cons g rest =>
    have hlen : (gs.take run.1).length ≤ 8 := by
      have := hrun.1.trans hrun.2.1
      omega
    have hparse : parseGroups 8 ((joinGroups (gs.take run.1)).toList ++
        ':' :: ':' :: (joinGroups (gs.drop run.2)).toList) [] none =
        some (gs.take run.1 ++ gs.drop run.2, some run.1) := by
      rw [parseGroups_join_ellipsis (by simp [hfront]) hleft hlen, List.nil_append, htake]
      cases hback : gs.drop run.2 with
      | nil => simp [joinGroups]
      | cons g' rest' =>
        obtain ⟨c, more, hjoin, -⟩ := joinGroups_head g' rest'
        rw [← hback, if_neg (by rw [hback, hjoin]; simp),
          parseGroups_join (by simp [hback]) hright (by rwa [htake] at hroom)]
    obtain ⟨c, more, hjoin, hc⟩ := joinGroups_head g rest
    rw [← hfront]
    rw [hfront, hjoin, List.cons_append] at hzone hparse
    rw [hfront] at hexpand
    rw [hfront, hjoin, List.cons_append, parseIPv6_group hc hzone, hparse, Option.bind_some,
      hexpand]
    rfl

theorem parseIPv6_format (a : BitVec 128) :
    parseIPv6 (formatIPv6 a "").toList = some (.v6 a "") := by
  have hzone : '%' ∉ (formatIPv6 a "").toList := by
    intro hmem
    rcases (formatIPv6_chars a).2 _ hmem with h | ⟨d, hd, h⟩
    · cases h
    · revert d
      decide
  have h8 : ((List.range 8).map (Addr.group a)).length = 8 := by simp
  have hlt : ∀ g ∈ (List.range 8).map (Addr.group a), g < 65536 := by
    intro g hg
    obtain ⟨i, -, rfl⟩ := List.mem_map.mp hg
    exact group_lt a i
  simp only [formatIPv6, if_true] at hzone ⊢
  split
  · rename_i hsame
    rw [if_pos hsame] at hzone
    have hparse := parseGroups_join (List.ne_nil_of_length_pos (by rw [h8]; norm_num)) hlt h8.le []
      none
    rw [List.nil_append] at hparse
    obtain ⟨g, rest, hgroups⟩ := List.exists_cons_of_ne_nil
      (List.ne_nil_of_length_pos (show 0 < ((List.range 8).map (Addr.group a)).length by simp))
    obtain ⟨c, more, hjoin, hc⟩ := joinGroups_head g rest
    rw [← hgroups] at hjoin
    rw [hjoin] at hparse hzone
    rw [hjoin, parseIPv6_group hc hzone, hparse, Option.bind_some, expandGroups, if_pos h8,
      Option.map_some, ofGroups_group]
  · rename_i hrun
    rw [if_neg hrun] at hzone
    simp only [String.toList_append, List.append_assoc] at hzone ⊢
    exact (parseIPv6_between h8 hlt (zeroBetween_zeroRun h8) hrun hzone).trans
      (by rw [ofGroups_group])

/-- The text of an IPv6 address without a zone reads back. -/
theorem parseAddr_formatIPv6 (a : BitVec 128) :
    parseAddr (formatIPv6 a "") = some (.v6 a "") := by
  obtain ⟨hcolon, hchars⟩ := formatIPv6_chars a
  have hfirst : (formatIPv6 a "").toList.find? (fun c => c = '.' || c = ':' || c = '%') =
      some ':' := by
    cases hfind : (formatIPv6 a "").toList.find? (fun c => c = '.' || c = ':' || c = '%') with
    | none => exact absurd (List.find?_eq_none.mp hfind ':' hcolon) (by simp)
    | some c =>
      rcases hchars c (List.mem_of_find?_eq_some hfind) with rfl | ⟨d, hd, rfl⟩
      · rfl
      · have hdigit : ∀ d < 16, ¬(d.digitChar = '.' || d.digitChar = ':' || d.digitChar = '%') := by
          decide
        exact absurd (List.find?_some hfind) (hdigit d hd)
  rw [parseAddr, parseAddrChars, hfirst]
  exact parseIPv6_format a

/-! ## The characters of a literal -/

theorem readFrom_digits {b acc n : ℕ} {l : List Char} (h : readFrom b acc l = some n) :
    ∀ c ∈ l, ∃ d < b, digitValue c = some d := by
  induction l generalizing acc with
  | nil => exact fun c hc => by cases hc
  | cons x xs ih =>
    simp only [readFrom] at h
    split at h
    · rename_i d hd
      split at h
      · rename_i hlt
        intro c hc
        rcases List.mem_cons.mp hc with rfl | hc
        · exact ⟨d, hlt, hd⟩
        · exact ih h c hc
      · cases h
    · cases h

theorem decimal_of_digitValue {c : Char} {d : ℕ} (hd : d < 10) (h : digitValue c = some d) :
    '0' ≤ c ∧ c ≤ '9' := by
  unfold digitValue at h
  split at h
  · assumption
  · split at h
    · cases h; omega
    · split at h
      · cases h; omega
      · cases h

/-- A number in decimal is a text of decimal digits, at least one. -/
theorem readNat_decimal {l : List Char} {n : ℕ} (h : readNat 10 l = some n) :
    l ≠ [] ∧ ∀ c ∈ l, '0' ≤ c ∧ c ≤ '9' := by
  unfold readNat at h
  split at h
  · cases h
  · rename_i hne
    refine ⟨hne, fun c hc => ?_⟩
    obtain ⟨d, hd, hvalue⟩ := readFrom_digits h c hc
    exact decimal_of_digitValue hd hvalue

theorem parseOctet_decimal {l : List Char} {n : ℕ} (h : parseOctet l = some n) :
    ∀ c ∈ l, '0' ≤ c ∧ c ≤ '9' := by
  unfold parseOctet at h
  split at h
  · rename_i m hm
    exact (readNat_decimal hm).2
  · cases h

/-- The labels of a dotted quad are numbers. -/
theorem parseIPv4_labels {l : List Char} {a : BitVec 32} (h : parseIPv4 l = some a) :
    ∀ w ∈ splitOn '.' l, ∀ c ∈ w, '0' ≤ c ∧ c ≤ '9' := by
  unfold parseIPv4 at h
  split at h
  · rename_i w0 w1 w2 w3 hsplit
    split at h
    · rename_i n0 n1 n2 n3 h0 h1 h2 h3
      rw [hsplit]
      intro w hw
      simp only [List.mem_cons, List.not_mem_nil, or_false] at hw
      rcases hw with rfl | rfl | rfl | rfl
      · exact parseOctet_decimal h0
      · exact parseOctet_decimal h1
      · exact parseOctet_decimal h2
      · exact parseOctet_decimal h3
    · cases h
  · cases h

theorem parseIPv4_chars {l : List Char} {a : BitVec 32} (h : parseIPv4 l = some a) {c : Char}
    (hc : c ∈ l) : c = '.' ∨ '0' ≤ c ∧ c ≤ '9' := by
  rcases mem_of_splitOn '.' hc with hc | ⟨w, hw, hc⟩
  · exact .inl hc
  · exact .inr (parseIPv4_labels h w hw c hc)

theorem isHexDigit_of_decimal {c : Char} (h : '0' ≤ c ∧ c ≤ '9') : isHexDigit c = true := by
  simp [isHexDigit, digitValue, h]

/-- What may stand in the text of an address without a zone. -/
def isLiteralChar (c : Char) : Bool := isHexDigit c || c = '.' || c = ':'

theorem parseIPv4_literal {l : List Char} {a : BitVec 32} (h : parseIPv4 l = some a) :
    ∀ c ∈ l, isLiteralChar c = true := by
  intro c hc
  rcases parseIPv4_chars h hc with rfl | hc
  · rfl
  · simp [isLiteralChar, isHexDigit_of_decimal hc]

theorem parseGroups_literal {room : ℕ} {s : List Char} {gs : List ℕ} {e : Option ℕ}
    {out : List ℕ × Option ℕ} (h : parseGroups room s gs e = some out) :
    ∀ c ∈ s, isLiteralChar c = true := by
  induction room generalizing s gs e with
  | zero =>
    simp only [parseGroups] at h
    split at h
    · rename_i hs
      simp [hs]
    · cases h
  | succ room ih =>
    -- what stands after the digits of the group decides how the text goes on
    have hrest (hrest : ∀ c ∈ s.dropWhile isHexDigit, isLiteralChar c = true) :
        ∀ c ∈ s, isLiteralChar c = true := by
      intro c hc
      rw [← List.takeWhile_append_dropWhile (p := isHexDigit) (l := s), List.mem_append] at hc
      rcases hc with hc | hc
      · simp [isLiteralChar, List.mem_takeWhile_imp hc]
      · exact hrest c hc
    have hcolon {more : List Char} (hmore : ∀ c ∈ more, isLiteralChar c = true) :
        ∀ c ∈ ':' :: more, isLiteralChar c = true :=
      List.forall_mem_cons.mpr ⟨rfl, hmore⟩
    simp only [parseGroups] at h
    split at h
    · cases h
    · split at h
      · split at h
        · cases h
        · obtain ⟨a, ha, -⟩ := Option.map_eq_some_iff.mp h
          exact parseIPv4_literal ha
      · rename_i hend
        exact hrest (by simp [hend])
      · cases h
      · rename_i more hend
        split at h
        · cases h
        · apply hrest
          rw [hend]
          apply hcolon
          apply hcolon
          split at h
          · rename_i hmore
            simp [hmore]
          · exact ih h
      · rename_i more _ _ hend
        apply hrest
        rw [hend]
        exact hcolon (ih h)
      · cases h

theorem parseAddr_literal {host : String} {ip : Addr} (h : parseAddr host = some ip)
    (hzone : '%' ∉ host.toList) : ∀ c ∈ host.toList, isLiteralChar c = true := by
  unfold parseAddr parseAddrChars at h
  split at h
  · obtain ⟨a, ha, -⟩ := Option.map_eq_some_iff.mp h
    exact parseIPv4_literal ha
  · simp only [parseIPv6, (cut_eq_none '%' _).mpr hzone, Option.getD_none, Option.isSome_none,
      Bool.false_eq_true, false_and, if_false, Option.map_eq_some_iff,
      Option.bind_eq_some_iff] at h
    obtain ⟨gs, ⟨groups, hgroups, -⟩, -⟩ := h
    split at hgroups
    · rename_i hs
      simp [hs, isLiteralChar]
    · rename_i s _ hs
      rw [hs]
      exact List.forall_mem_cons.mpr ⟨rfl, List.forall_mem_cons.mpr
        ⟨rfl, parseGroups_literal hgroups⟩⟩
    · exact parseGroups_literal hgroups
  · cases h

theorem parseAddrChars_v4 {l : List Char} {ip : Addr} (h : parseAddrChars l = some ip)
    (h4 : ip.is4 = true) : ∃ a, parseIPv4 l = some a ∧ ip = .v4 a := by
  unfold parseAddrChars at h
  split at h
  · obtain ⟨a, ha, rfl⟩ := Option.map_eq_some_iff.mp h
    exact ⟨a, ha, rfl⟩
  · simp only [parseIPv6] at h
    split at h
    · cases h
    · obtain ⟨gs, -, rfl⟩ := Option.map_eq_some_iff.mp h
      cases h4
  · cases h

/-- The colon tells the two families apart. -/
theorem parseAddr_is4 {host : String} {ip : Addr} (h : parseAddr host = some ip) :
    ip.is4 = true ↔ ':' ∉ host.toList := by
  constructor
  · intro h4 hc
    obtain ⟨a, ha, -⟩ := parseAddrChars_v4 h h4
    rcases parseIPv4_chars ha hc with hc | hc
    · cases hc
    · revert hc
      decide
  · intro hcolon
    unfold parseAddr parseAddrChars at h
    split at h
    · obtain ⟨a, -, rfl⟩ := Option.map_eq_some_iff.mp h
      rfl
    · rename_i hfind
      exact absurd (List.mem_of_find?_eq_some hfind) hcolon
    · cases h

/-! ## Addresses without a zone -/

theorem parseAddr_zone {host : String} {ip : Addr} (h : parseAddr host = some ip)
    (hzone : '%' ∉ host.toList) : ip.isValid = true ∧ ip.zone = "" := by
  unfold parseAddr parseAddrChars at h
  split at h
  · obtain ⟨a, -, rfl⟩ := Option.map_eq_some_iff.mp h
    exact ⟨rfl, rfl⟩
  · simp only [parseIPv6, (cut_eq_none '%' _).mpr hzone, Option.getD_none, Option.isSome_none,
      Bool.false_eq_true, false_and, if_false, Option.map_eq_some_iff] at h
    obtain ⟨gs, -, rfl⟩ := h
    exact ⟨rfl, rfl⟩
  · cases h

/-- An unmapped address without a zone reads back from its text. -/
theorem parseAddr_string {a : Addr} (hvalid : a.isValid = true) (hzone : a.zone = "")
    (hmapped : a.is4In6 = false) : parseAddr a.string = some a := by
  cases a with
  | zero => cases hvalid
  | v4 a => exact parseAddr_formatIPv4 a
  | v6 a zone =>
    cases hzone
    have htext : (Addr.v6 a "").string = formatIPv6 a "" := by simp only [Addr.string, hmapped]; rfl
    rw [htext, parseAddr_formatIPv6]

end SakhtarWg.Netip
