import SakhtarWg.RedactionPasses

/-!
# Messages with a secret

The places a secret can take in a message, and for each of them whether the output tells two
secrets apart. A later pass works on what an earlier one left, and an assignment takes only the
first word of its value: this decides which forms are hidden.
-/

namespace SakhtarWg.Redaction
open Scan

/-! ## Forms and contexts -/

/-- A key name, a separator and the white space around it. -/
def opening (key white : List Char) (separator : Char) (white' : List Char) : List Char :=
  key ++ white ++ separator :: white'

/-- The name of an authorization scheme. -/
structure IsAuthScheme (scheme : List Char) : Prop where
  ne_nil : scheme ≠ []
  value : ∀ c ∈ scheme, isValue c = true
  separator : ∀ c ∈ scheme, isSeparator c = false
  dashes : ¬dashes <:+: scheme

/-- Where a secret sits. -/
inductive Form
  /-- The user information of a URL. -/
  | url (scheme rest : List Char)
  /-- The value assigned to a key. -/
  | value (key white : List Char) (separator : Char) (white' : List Char)
  /-- The credential behind the scheme assigned to `authorization`. -/
  | credential (key white : List Char) (separator : Char) (white' scheme : List Char)
  /-- The body of a PEM block. -/
  | pem (label label' : List Char)
  /-- The body of a PEM block assigned to a key. -/
  | pemValue (key white : List Char) (separator : Char) (white' label label' : List Char)

namespace Form

/-- The construct up to the secret. -/
def before : Form → List Char
  | url scheme _ => scheme
  | value key white separator white' => opening key white separator white'
  | credential key white separator white' scheme =>
    opening key white separator white' ++ (scheme ++ [' '])
  | pem label _ => pemBefore label
  | pemValue key white separator white' label _ =>
    opening key white separator white' ++ pemBefore label

/-- The construct behind the secret. -/
def after : Form → List Char
  | url _ rest => '@' :: rest
  | value _ _ _ _ => []
  | credential _ _ _ _ _ => []
  | pem _ label' => pemAfter label'
  | pemValue _ _ _ _ _ label' => pemAfter label'

def chars (f : Form) (pre secret post : List Char) : List Char :=
  pre ++ (f.before ++ (secret ++ (f.after ++ post)))

def message (f : Form) (pre secret post : List Char) : String :=
  String.ofList (f.chars pre secret post)

/-- The parts of the construct are what they are called. Key names stand as whole words behind
white space. -/
def Proper : Form → Prop
  | url scheme _ => IsScheme scheme
  | value key white separator white' => Opens none key white separator white'
  | credential key white separator white' scheme =>
    Opens none key white separator white' ∧ key.map fold = "authorization".toList ∧
      IsAuthScheme scheme
  | pem label label' => IsLabel label ∧ IsLabel label'
  | pemValue key white separator white' label label' =>
    Opens none key white separator white' ∧ IsLabel label ∧ IsLabel label'

/-- The secrets of a form. -/
def Secret : Form → List Char → Prop
  | url _ _, s => s ≠ [] ∧ ∀ c ∈ s, isUser c = true
  | value _ _ _ _, s => s ≠ [] ∧ ∀ c ∈ s, isValue c = true
  | credential _ _ _ _ _, s => s ≠ [] ∧ ∀ c ∈ s, isValue c = true
  | pem _ _, s => s ≠ [] ∧ '-' ∉ s
  | pemValue _ _ _ _ _ _, s => s ≠ [] ∧ '-' ∉ s

end Form

/-- No pattern matches anywhere in a text. -/
structure Free (t : List Char) : Prop where
  urls : Quiet credentialURL none t []
  assignments : Quiet secretAssignment none t []
  blocks : Quiet pemMaterial none t []

/-- A prefix and a suffix, separated by white space from what stands between them. -/
structure Context (pre post : List Char) : Prop where
  before : ∀ c ∈ pre.getLast?, isWhite c = true
  after : ∀ c ∈ post.head?, isWhite c = true
  pre_free : Free pre
  post_free : Free post

/-! ## Each pass over the parts -/

section
variable {pre post t b : List Char}

theorem urls_before (before : Option Char) (l : List Char) :
    replaceFrom credentialURL before 0 l = replaceAll credentialURL l :=
  replaceFrom_before rfl

theorem urls_quiet (h : Quiet credentialURL none t b) :
    replaceAll credentialURL (t ++ b) = t ++ replaceAll credentialURL b :=
  (replaceFrom_quiet h).trans (congrArg (t ++ ·) (urls_before _ b))

theorem assignments_quiet (h : Quiet secretAssignment none t b)
    (hreset : (∀ c ∈ t.getLast?, isWord c = false) ∨ ∀ c ∈ b.head?, ¬IsLetter c) :
    replaceAll secretAssignment (t ++ b) = t ++ replaceAll secretAssignment b := by
  refine (replaceFrom_quiet h).trans (congrArg (t ++ ·) ?_)
  rcases hreset with hlast | hhead
  · cases ht : t.getLast? with
    | none =>
      rw [lastOr, ht]
      rfl
    | some c =>
      rw [lastOr, ht]
      exact assignments_before_word (hlast c ht) b
  · exact assignments_before hhead

theorem blocks_quiet (h : Quiet pemMaterial none t b) :
    replaceAll pemMaterial (t ++ b) = t ++ replaceAll pemMaterial b :=
  (replaceFrom_quiet h).trans (congrArg (t ++ ·) (replaceFrom_before rfl))

theorem letter_not_separator {c : Char} (h : IsLetter c) : isSeparator c = false := by
  by_contra hs
  exact not_letter_of_separator (Bool.not_eq_false _ ▸ hs) h

theorem white_not_word {c : Char} (h : isWhite c = true) : isWord c = false :=
  white_forall (isWord · = false) (by decide) h

namespace Context
variable (h : Context pre post)
include h

theorem urls_pre (l : List Char) :
    replaceAll credentialURL (pre ++ l) = pre ++ replaceAll credentialURL l :=
  urls_quiet (urls_quiet_of_white h.pre_free.urls h.before l)

theorem urls_post : replaceAll credentialURL post = post :=
  replaceFrom_quiet_nil h.post_free.urls

theorem assignments_post : replaceAll secretAssignment post = post :=
  replaceFrom_quiet_nil h.post_free.assignments

theorem blocks_post : replaceAll pemMaterial post = post :=
  replaceFrom_quiet_nil h.post_free.blocks

theorem assignments_pre (hd : ¬Dangling pre) (hb : Goes pre b) :
    replaceAll secretAssignment (pre ++ b) = pre ++ replaceAll secretAssignment b :=
  assignments_quiet (assignments_quiet_of_white h.pre_free.assignments h.before hd hb)
    (.inl fun c hc => white_not_word (h.before c hc))

theorem assignments_pre_dangling (hd : Dangling pre) : ∃ kept, kept <+: pre ∧ ∀ b, Goes pre b →
    replaceAll secretAssignment (pre ++ b) =
      kept ++ (redacted ++ replaceAll secretAssignment (b.dropWhile isValue)) := by
  obtain ⟨kept, hkept, hrun⟩ := assignments_dangling h.pre_free.assignments h.before hd
  exact ⟨kept, hkept, fun b hb => (hrun b hb).trans (List.append_assoc _ _ _)⟩

end Context

/-! ### Openings -/

section
variable {key white white' : List Char} {separator : Char}
  (ho : Opens none key white separator white')
include ho

theorem urls_opening (l : List Char) :
    replaceAll credentialURL (opening key white separator white' ++ l) =
      opening key white separator white' ++ replaceAll credentialURL l := by
  apply urls_quiet
  have hwhite : Quiet credentialURL (lastOr none key) white (separator :: white' ++ l) :=
    Quiet.of_idle (fun c hc => urls_idle_of_white (ho.white c hc)) _
  have hrest : Quiet credentialURL (lastOr none (key ++ white)) (separator :: white') l := by
    refine Quiet.of_idle (fun c hc => ?_) l
    rcases List.mem_cons.mp hc with rfl | hc
    · exact urls_idle_of_separator ho.separator
    · exact urls_idle_of_white (ho.white' c hc)
  exact ((urls_quiet_of_key ho.name _).append hwhite).append hrest

theorem opening_head (l : List Char) :
    ∃ c, (opening key white separator white' ++ l).head? = some c ∧ IsLetter c := by
  obtain ⟨c, key', hkey⟩ := List.exists_cons_of_ne_nil (key_ne_nil ho.name)
  refine ⟨c, ?_, isLetter_of_mem ho.name (by simp [hkey])⟩
  simp [opening, hkey]

theorem Context.goes_opening (h : Context pre post) (l : List Char) :
    Goes pre (opening key white separator white' ++ l) := by
  obtain ⟨c, hc, hletter⟩ := opening_head ho l
  refine goes_of_white h.before (fun hnil => by simp [hnil] at hc) fun d hd => ?_
  rw [hc] at hd
  cases hd
  exact ⟨isValue_of_letter hletter, letter_not_separator hletter⟩

/-- An opening with its value. -/
theorem assignments_opening {v l : List Char} (hne : v ≠ []) (hv : ∀ c ∈ v, isValue c = true)
    (hl : ∀ c ∈ l.head?, isValue c = false) :
    replaceAll secretAssignment (opening key white separator white' ++ (v ++ l)) =
      key ++ white ++ separator :: (redacted ++ replaceAll secretAssignment l) := by
  have hmatch := (@secretAssignment_eq_some none
    (opening key white separator white' ++ (v ++ l)) _).mpr
      ⟨key, white, separator, white', v, l, ho, hne, hv, hl, by simp [opening], rfl⟩
  have hletter : ∀ c ∈ l.head?, ¬IsLetter c := fun c hc hletter => by
    have := hl c hc
    rw [isValue_of_letter hletter] at this
    cases this
  have hreset := @assignments_before (lastOr none (key ++ white ++ separator :: (white' ++ v))) none
    l hletter
  rw [replaceAll, replaceFrom_match secretAssignment_sound hmatch]
  dsimp only
  rw [hreset]
  simp [replaceAll]

theorem opening_value : ∀ c ∈ key ++ [separator], isValue c = true := by
  intro c hc
  rcases List.mem_append.mp hc with hc | hc
  · exact isValue_of_letter (isLetter_of_mem ho.name hc)
  · rw [List.mem_singleton.mp hc]
    exact separator_forall (isValue · = true) (by decide) ho.separator

/-- Without white space an opening is part of the word it stands in. -/
theorem opening_drop_compact (hw : white = []) (hw' : white' = []) (l : List Char) :
    (opening key white separator white' ++ l).dropWhile isValue = l.dropWhile isValue := by
  subst hw hw'
  have hsplit : opening key [] separator [] ++ l = key ++ [separator] ++ l := by simp [opening]
  rw [hsplit, List.dropWhile_append_of_pos (opening_value ho)]

end

/-- What stays of an opening whose first word is taken. -/
def gap (white : List Char) (separator : Char) (white' : List Char) : List Char :=
  if white = [] then white' else white ++ separator :: white'

section
variable {key white white' : List Char} {separator : Char}
  (ho : Opens none key white separator white')
include ho

theorem opening_drop_gap (hgap : ¬(white = [] ∧ white' = [])) (l : List Char) :
    (opening key white separator white' ++ l).dropWhile isValue =
      gap white separator white' ++ l := by
  have hstop : ∀ {u : List Char}, u ≠ [] → (∀ c ∈ u, isWhite c = true) → ∀ l,
      ∀ c ∈ (u ++ l).head?, isValue c = false := by
    intro u hu hwhite l c hc
    rw [List.head?_append_of_ne_nil _ hu] at hc
    simp [isValue, hwhite c (List.mem_of_mem_head? hc)]
  have hvalue := List.forall_mem_append.mp (opening_value ho)
  unfold gap
  split
  · rename_i hw
    subst hw
    have hw' : white' ≠ [] := fun h => hgap ⟨rfl, h⟩
    have hsplit : opening key [] separator white' ++ l = key ++ [separator] ++ (white' ++ l) := by
      simp [opening]
    rw [hsplit]
    exact (takeWhile_append_stop (opening_value ho) (hstop hw' ho.white' l)).2
  · rename_i hw
    have hsplit : opening key white separator white' ++ l =
        key ++ (white ++ (separator :: white' ++ l)) := by
      simp [opening]
    rw [hsplit, List.append_assoc]
    exact (takeWhile_append_stop hvalue.1 (hstop hw ho.white _)).2

theorem gap_mem {c : Char} (hc : c ∈ gap white separator white') :
    isWhite c = true ∨ isSeparator c = true := by
  unfold gap at hc
  split at hc
  · exact .inl (ho.white' c hc)
  · simp only [List.mem_append, List.mem_cons] at hc
    rcases hc with hc | rfl | hc
    · exact .inl (ho.white c hc)
    · exact .inr ho.separator
    · exact .inl (ho.white' c hc)

theorem assignments_gap (l : List Char) :
    replaceAll secretAssignment (gap white separator white' ++ l) =
      gap white separator white' ++ replaceAll secretAssignment l := by
  apply assignments_quiet
  · refine Quiet.of_idle (fun c hc => assignment_idle ?_) l
    exact (gap_mem ho hc).elim not_letter_of_white not_letter_of_separator
  · refine .inl fun c hc => ?_
    exact (gap_mem ho (List.mem_of_getLast? hc)).elim white_not_word
      (separator_forall (isWord · = false) (by decide))

theorem gap_no_dash : '-' ∉ gap white separator white' := by
  intro hmem
  rcases gap_mem ho hmem with h | h
  · exact absurd h (by decide)
  · exact absurd h (by decide)

theorem opening_no_dash : '-' ∉ opening key white separator white' := by
  unfold opening
  simp only [List.mem_append, List.mem_cons, not_or]
  refine ⟨⟨fun h => ?_, fun h => ?_⟩, fun h => ?_, fun h => ?_⟩
  · exact absurd (isLetter_of_mem ho.name h) (by decide)
  · exact absurd (ho.white _ h) (by decide)
  · exact absurd (h ▸ ho.separator) (by decide)
  · exact absurd (ho.white' _ h) (by decide)

end

/-! ### Plain text -/

/-- Two secrets that no pattern asks for. -/
def probes : List Char := ['x', 'q']

theorem getLast_dashes (t : List Char) : (t ++ dashes).getLast? = some '-' := by
  rw [List.getLast?_append, dashes_eq]
  rfl

/-- Text without separators that ends with a dash or a probe. -/
structure Plain (t : List Char) : Prop where
  separator : ∀ c ∈ t, isSeparator c = false
  last : ∃ c ∈ t.getLast?, c ∈ '-' :: probes

theorem plain_probe {c : Char} (hc : c ∈ probes) : Plain [c] :=
  ⟨(by decide : ∀ c ∈ probes, ∀ d ∈ [c], isSeparator d = false) c hc, c, rfl,
    List.mem_cons_of_mem _ hc⟩

theorem urls_probe {c : Char} (hc : c ∈ probes) : replaceAll credentialURL [c] = [c] :=
  (by decide : ∀ c ∈ probes, replaceAll credentialURL [c] = [c]) c hc

theorem Plain.append {u : List Char} (ht : ∀ c ∈ t, isSeparator c = false) (hu : Plain u) :
    Plain (t ++ u) := by
  obtain ⟨c, hc, hlast⟩ := hu.last
  refine ⟨List.forall_mem_append.mpr ⟨ht, hu.separator⟩, c, ?_, hlast⟩
  rw [Option.mem_def] at hc
  rw [List.getLast?_append, hc]
  rfl

theorem Plain.urls (ht : Plain t) (l : List Char) :
    replaceAll credentialURL (t ++ l) = t ++ replaceAll credentialURL l := by
  obtain ⟨c, hc, hlast⟩ := ht.last
  refine urls_quiet (urls_quiet_of_plain (fun hmem => ?_) (fun d hd => ?_) l)
  · exact absurd (ht.separator ':' hmem) (by decide)
  · cases hc.symm.trans hd
    exact (by decide : ∀ c ∈ '-' :: probes, fold c ∉ ['h', 't', 'p', 's', ':', '/']) c hlast

theorem Plain.assignments (ht : Plain t)
    (hreset : t.getLast? = some '-' ∨ ∀ c ∈ b.head?, ¬IsLetter c) :
    replaceAll secretAssignment (t ++ b) = t ++ replaceAll secretAssignment b := by
  obtain ⟨c, hc, hlast⟩ := ht.last
  refine assignments_quiet (assignments_quiet_of_plain ht.separator (fun d hd => ?_) b)
    (hreset.imp (fun hdash d hd => ?_) id)
  · cases hc.symm.trans hd
    exact (by decide : ∀ c ∈ '-' :: probes, ¬IsLetter c ∧ isWhite c = false) c hlast
  · cases hdash.symm.trans hd
    decide

/-- The lines of a block. -/
theorem IsLabel.plain {label literal : List Char} (hl : IsLabel label)
    (hliteral : ∀ c ∈ literal, isSeparator c = false) : Plain (literal ++ label ++ dashes) :=
  Plain.append (List.forall_mem_append.mpr ⟨hliteral, hl.separator⟩)
    ⟨by decide, '-', by decide, by decide⟩

theorem IsLabel.assignments {label literal : List Char} (hl : IsLabel label)
    (hliteral : ∀ c ∈ literal, isSeparator c = false) (l : List Char) :
    replaceAll secretAssignment (literal ++ label ++ dashes ++ l) =
      literal ++ label ++ dashes ++ replaceAll secretAssignment l :=
  (hl.plain hliteral).assignments (.inl (getLast_dashes _))

theorem Context.urls_plain (h : Context pre post) (ht : Plain t) :
    replaceAll credentialURL (t ++ post) = t ++ post := by
  rw [ht.urls, h.urls_post]

theorem Context.assignments_plain (h : Context pre post) (ht : Plain t) :
    replaceAll secretAssignment (t ++ post) = t ++ post := by
  rw [ht.assignments (.inr fun c hc => not_letter_of_white (h.after c hc)), h.assignments_post]

theorem blocks_plain (h : '-' ∉ t) (l : List Char) :
    replaceAll pemMaterial (t ++ l) = t ++ replaceAll pemMaterial l :=
  blocks_quiet (pem_quiet_of_no_dash h l)

/-- The header of a block ends the word its dashes begin. -/
theorem drop_header (label l : List Char) : (pemBefore label ++ l).dropWhile isValue =
    ' ' :: label ++ dashes ++ l := by
  rw [pemBefore, beginLiteral_eq]
  simp [isValue, isWhite]

theorem drop_footer (label l : List Char) : (pemAfter label ++ l).dropWhile isValue =
    ' ' :: label ++ dashes ++ l := by
  rw [pemAfter, endLiteral_eq]
  simp [isValue, isWhite]

end

/-! ## Blocks whose end survives -/

/-- Once its user information is redacted, a body does not end in an open assignment. -/
def Settles (body : List Char) : Prop := ¬EndsOpen none (replaceAll credentialURL body)

theorem settles_probe {c : Char} (hc : c ∈ probes) : Settles [c] := by
  have hletter : ¬IsLetter c := (by decide : ∀ c ∈ probes, ¬IsLetter c) c hc
  rw [Settles, urls_probe hc]
  intro hends
  cases hends with
  | here ho =>
    obtain ⟨key, white, separator, white', value, hopens, -, hsplit, -⟩ := ho
    obtain ⟨d, key', rfl⟩ := List.exists_cons_of_ne_nil (key_ne_nil hopens.name)
    simp at hsplit
  | miss _ ht => exact not_endsOpen_nil _ ht
  | hit hm => exact absurd ((assignment_idle hletter _ _).symm.trans hm) (by simp)

theorem urls_no_dash {body : List Char} (h : '-' ∉ body) : '-' ∉ replaceAll credentialURL body := by
  have hall : ∀ c ∈ replaceAll credentialURL body, c ≠ '-' := by
    refine replaceFrom_forall credentialURL_sound (fun before l m hm hl => ?_) fun c hc he =>
      h (he ▸ hc)
    obtain ⟨scheme, user, rest, -, -, -, rfl, rfl⟩ := credentialURL_eq_some.mp hm
    intro c hc
    simp only [List.mem_append, List.mem_singleton] at hc
    rcases hc with (hc | hc) | rfl
    · exact hl c (by simp [hc])
    · exact (by decide : ∀ c ∈ redacted, c ≠ '-') c hc
    · decide
  exact fun hmem => hall _ hmem rfl

/-- What the assignments make of a body and a line of dashes behind it. -/
theorem settles_run {body : List Char} (h : '-' ∉ body) :
    (Settles body ∧ ∃ w, '-' ∉ w ∧ ∀ b,
      replaceAll secretAssignment (replaceAll credentialURL body ++ '-' :: b) =
        w ++ replaceAll secretAssignment ('-' :: b)) ∨
    (¬Settles body ∧ ∃ w, '-' ∉ w ∧ ∀ b,
      replaceAll secretAssignment (replaceAll credentialURL body ++ '-' :: b) =
        w ++ redacted ++ replaceAll secretAssignment (('-' :: b).dropWhile isValue)) := by
  have hdash := urls_no_dash h
  rcases assignments_run none (replaceAll credentialURL body) with
    ⟨hclosed, w, hw, hrun⟩ | ⟨hends, w, hw, hrun⟩
  · exact .inl ⟨hclosed, w, hw hdash, hrun⟩
  · exact .inr ⟨not_not_intro hends, w, hw hdash, hrun⟩

section
variable {pre post label label' : List Char} (h : Context pre post) (hl : IsLabel label)
  (hl' : IsLabel label')
include h hl hl'

theorem Context.urls_block (body : List Char) :
    replaceAll credentialURL (pemBefore label ++ (body ++ (pemAfter label' ++ post))) =
      pemBefore label ++ (replaceAll credentialURL body ++ (pemAfter label' ++ post)) := by
  have hafter : replaceAll credentialURL (pemAfter label' ++ post) = pemAfter label' ++ post := by
    exact h.urls_plain (hl'.plain (by decide))
  have hcut : ∃ b₁ c b₂, pemAfter label' ++ post = b₁ ++ c :: b₂ ∧ isWhite c = true ∧ '@' ∉ b₁ := by
    refine ⟨['-', '-', '-', '-', '-', 'E', 'N', 'D'], ' ', label' ++ dashes ++ post, ?_, by decide,
      by decide⟩
    rw [pemAfter, endLiteral_eq]
    simp
  rw [pemBefore, (hl.plain (by decide)).urls]
  congr 1
  refine (urls_append (.inr hcut)).trans (congrArg (replaceAll credentialURL body ++ ·) ?_)
  exact (urls_before _ _).trans hafter

/-- A block is hidden when the assignments leave its end alone, and only then. -/
theorem Context.settles_iff {body : List Char} (hbody : '-' ∉ body) :
    Settles body ↔ replaceAll pemMaterial (replaceAll secretAssignment
      (pemBefore label ++ (replaceAll credentialURL body ++ (pemAfter label' ++ post)))) =
        redacted ++ post := by
  obtain ⟨b, hb⟩ : ∃ b, pemAfter label' ++ post = '-' :: b := by
    rw [pemAfter, endLiteral_eq]
    exact ⟨_, rfl⟩
  have hbefore : ∀ l, replaceAll secretAssignment (pemBefore label ++ l) =
      pemBefore label ++ replaceAll secretAssignment l := hl.assignments (by decide)
  have hafter : replaceAll secretAssignment (pemAfter label' ++ post) = pemAfter label' ++ post :=
    h.assignments_plain (hl'.plain (by decide))
  rw [hbefore]
  rcases settles_run hbody with ⟨hs, w, hw, hrun⟩ | ⟨hs, w, hw, hrun⟩
  · refine iff_of_true hs ?_
    rw [hb, hrun, ← hb, hafter]
    refine (pem_hides hl hl' hw).trans ?_
    exact congrArg (redacted ++ ·) h.blocks_post
  · refine iff_of_false hs ?_
    have hrest : replaceAll secretAssignment ([' '] ++ label' ++ dashes ++ post) =
        [' '] ++ label' ++ dashes ++ post :=
      h.assignments_plain (hl'.plain (by decide))
    have hdrop : (pemAfter label' ++ post).dropWhile isValue = [' '] ++ label' ++ dashes ++ post :=
      drop_footer label' post
    rw [hb, hrun, ← hb, hdrop, hrest]
    have htail : '-' ∉ w ++ redacted ++ ([' '] ++ label') := by
      simp only [List.mem_append, not_or]
      exact ⟨⟨hw, by decide⟩, by decide, hl'.dash⟩
    have hsplit : w ++ redacted ++ ([' '] ++ label' ++ dashes ++ post) =
        w ++ redacted ++ ([' '] ++ label') ++ (dashes ++ post) := by
      simp
    rw [hsplit]
    intro heq
    cases hm : pemMaterial none
        (pemBefore label ++ (w ++ redacted ++ ([' '] ++ label') ++ (dashes ++ post))) with
    | some m =>
      -- the block reaches over part of the suffix, so the output is too short
      obtain ⟨hout, hshort⟩ := pem_unended hl htail h.after hm
      rw [replaceAll, replaceFrom_match pemMaterial_sound hm, hout] at heq
      have hlength := congrArg List.length (List.append_cancel_left heq)
      have hle := @replaceFrom_length_le _ _ (lastOr none m.text) pemMaterial_sound pem_out_length
        m.rest
      omega
    | none =>
      -- the header stays
      obtain ⟨c, hc⟩ : ∃ c, pemBefore label ++
          (w ++ redacted ++ ([' '] ++ label') ++ (dashes ++ post)) = '-' :: c := by
        rw [pemBefore, beginLiteral_eq]
        exact ⟨_, rfl⟩
      rw [hc] at hm heq
      rw [replaceAll, replaceFrom_miss hm, redacted_eq] at heq
      simp at heq

end

/-! ## What becomes of each form -/

namespace Form

/-- The prefixes behind which a form is hidden. -/
def Safe : Form → List Char → Prop
  | url _ _, _ => True
  | value _ white _ white', pre => Dangling pre → white = [] ∧ white' = []
  | credential _ _ _ _ _, _ => False
  | pem _ _, pre => ¬Dangling pre ∧ ¬beginLiteral <:+: pre
  | pemValue _ white _ white' _ _, pre =>
    Dangling pre ∧ ¬(white = [] ∧ white' = []) ∧ ¬beginLiteral <:+: pre

/-- The secrets a form hides. -/
def Settled : Form → List Char → Prop
  | url _ _, _ => True
  | value _ _ _ _, _ => True
  | credential _ _ _ _ _, _ => True
  | pem _ _, s => Settles s
  | pemValue _ _ _ _ _ _, s => Settles s

/-- Every settled secret gives one output, and no other secret does. -/
def Covers (f : Form) (pre post : List Char) : Prop :=
  ∃ out, ∀ s, f.Secret s → (f.Settled s ↔ redactChars (f.chars pre s post) = out)

/-- The output holds the secret. -/
def Leaks (f : Form) (pre post : List Char) : Prop :=
  ∃ out out', ∀ c ∈ probes, redactChars (f.chars pre [c] post) = out ++ c :: out'

end Form

section
variable {pre post : List Char} (h : Context pre post)
include h

theorem Context.cut : post = [] ∨ ∃ b₁ c b₂, post = b₁ ++ c :: b₂ ∧ isWhite c = true ∧ '@' ∉ b₁ := by
  cases hp : post with
  | nil => exact .inl rfl
  | cons c b => exact .inr ⟨[], c, b, rfl, h.after c (by rw [hp]; rfl), by simp⟩

theorem Context.post_stops : ∀ c ∈ post.head?, isValue c = false := by
  intro c hc
  simp [isValue, h.after c hc]

theorem Context.blocks_pre (hb : ¬beginLiteral <:+: pre) (l : List Char) :
    replaceAll pemMaterial (pre ++ l) = pre ++ replaceAll pemMaterial l :=
  blocks_quiet (pem_quiet_of_white hb h.before l)

end

theorem blocks_kept {pre kept : List Char} (hb : ¬beginLiteral <:+: pre) (hk : kept <+: pre)
    (l : List Char) : replaceAll pemMaterial (kept ++ (redacted ++ l)) =
      kept ++ (redacted ++ replaceAll pemMaterial l) := by
  have hkept : ¬beginLiteral <:+: kept := fun hin => hb (hin.trans hk.isInfix)
  rw [blocks_quiet (pem_quiet_of_head hkept ?_), blocks_plain (by decide)]
  intro c hc
  rw [redacted_eq] at hc
  cases hc
  decide

/-! ### User information -/

theorem covers_url {scheme rest pre post : List Char} (h : Context pre post)
    (hs : IsScheme scheme) : (Form.url scheme rest).Covers pre post := by
  refine ⟨replaceAll pemMaterial (replaceAll secretAssignment
    (pre ++ (scheme ++ redacted ++ ['@'] ++ replaceAll credentialURL (rest ++ post)))),
    fun s hsecret => iff_of_true trivial ?_⟩
  have hmatch := (@credentialURL_eq_some none (scheme ++ (s ++ '@' :: (rest ++ post))) _).mpr
    ⟨scheme, s, rest ++ post, hs, hsecret.1, hsecret.2, rfl, rfl⟩
  have hurl : replaceAll credentialURL (scheme ++ (s ++ '@' :: (rest ++ post))) =
      scheme ++ redacted ++ ['@'] ++ replaceAll credentialURL (rest ++ post) := by
    refine (replaceFrom_match credentialURL_sound hmatch).trans ?_
    exact congrArg (scheme ++ redacted ++ ['@'] ++ ·) (urls_before _ _)
  unfold redactChars
  congr 2
  exact (h.urls_pre _).trans (congrArg (pre ++ ·) hurl)

/-! ### Values -/

theorem urls_value {s : List Char} (hs : ∀ c ∈ s, isValue c = true) :
    ∀ c ∈ replaceAll credentialURL s, isValue c = true := by
  refine replaceFrom_forall credentialURL_sound (fun before l m hm hl => ?_) hs
  obtain ⟨scheme, user, rest, -, -, -, rfl, rfl⟩ := credentialURL_eq_some.mp hm
  intro c hc
  simp only [List.mem_append, List.mem_singleton] at hc
  rcases hc with (hc | hc) | rfl
  · exact hl c (by simp [hc])
  · exact (by decide : ∀ c ∈ redacted, isValue c = true) c hc
  · decide

theorem urls_ne_nil {s : List Char} (hs : s ≠ []) : replaceAll credentialURL s ≠ [] := by
  refine replaceFrom_ne_nil credentialURL_sound (fun before l m hm => ?_) hs
  obtain ⟨scheme, user, rest, -, -, -, -, rfl⟩ := credentialURL_eq_some.mp hm
  simp

section
variable {pre post key white white' : List Char} {separator : Char} (h : Context pre post)
  (ho : Opens none key white separator white')
include h ho

/-- The first pass over an assigned value. -/
theorem Context.urls_value (s : List Char) :
    replaceAll credentialURL ((Form.value key white separator white').chars pre s post) =
      pre ++ (opening key white separator white' ++ (replaceAll credentialURL s ++ post)) := by
  refine (h.urls_pre _).trans (congrArg (pre ++ ·) ?_)
  refine (urls_opening ho _).trans (congrArg (opening key white separator white' ++ ·) ?_)
  refine (urls_append h.cut).trans (congrArg (replaceAll credentialURL s ++ ·) ?_)
  exact (urls_before _ _).trans h.urls_post

theorem covers_value (hsafe : Dangling pre → white = [] ∧ white' = []) :
    (Form.value key white separator white').Covers pre post := by
  -- the secret is gone after the second pass
  obtain ⟨out, hout⟩ : ∃ out, ∀ v, v ≠ [] → (∀ c ∈ v, isValue c = true) →
      replaceAll secretAssignment (pre ++ (opening key white separator white' ++ (v ++ post))) =
        out := by
    by_cases hd : Dangling pre
    · obtain ⟨hw, hw'⟩ := hsafe hd
      obtain ⟨kept, -, hrun⟩ := h.assignments_pre_dangling hd
      refine ⟨kept ++ (redacted ++ replaceAll secretAssignment post), fun v hne hv => ?_⟩
      rw [hrun _ (Context.goes_opening ho h _), opening_drop_compact ho hw hw',
        (takeWhile_append_stop hv h.post_stops).2]
    · refine ⟨pre ++ (key ++ white ++ separator :: (redacted ++ replaceAll secretAssignment post)),
        fun v hne hv => ?_⟩
      rw [h.assignments_pre hd (Context.goes_opening ho h _),
        assignments_opening ho hne hv h.post_stops]
  refine ⟨replaceAll pemMaterial out, fun s hs => iff_of_true trivial ?_⟩
  rw [redactChars, h.urls_value ho, hout _ (urls_ne_nil hs.1) (Redaction.urls_value hs.2)]

/-- Behind a prefix that is not open, what follows the value stays. -/
theorem Context.leaks_behind (hd : ¬Dangling pre) (hb : ¬beginLiteral <:+: pre) {v t : List Char}
    (hne : v ≠ []) (hv : ∀ c ∈ v, isValue c = true) (ht : ∀ c ∈ t.head?, isValue c = false)
    (htail : replaceAll secretAssignment t = t ∧ replaceAll pemMaterial t = t) :
    replaceAll pemMaterial (replaceAll secretAssignment
      (pre ++ (opening key white separator white' ++ (v ++ t)))) =
        pre ++ (key ++ white ++ separator :: (redacted ++ t)) := by
  have hdash : '-' ∉ key ++ white ++ separator :: redacted := by
    have hopening := opening_no_dash ho
    simp only [opening, List.mem_append, List.mem_cons, not_or] at hopening ⊢
    exact ⟨hopening.1, hopening.2.1, by decide⟩
  have hsplit : key ++ white ++ separator :: (redacted ++ t) =
      key ++ white ++ separator :: redacted ++ t := by
    simp
  rw [h.assignments_pre hd (Context.goes_opening ho h _), assignments_opening ho hne hv ht,
    htail.1, h.blocks_pre hb, hsplit, blocks_plain hdash, htail.2]

omit ho in
/-- Behind an open prefix, what follows the word it takes stays. -/
theorem Context.leaks_dangling (hd : Dangling pre) (hb : ¬beginLiteral <:+: pre) :
    ∃ kept, ∀ l t, Goes pre l → l.dropWhile isValue = t →
      replaceAll secretAssignment t = t → replaceAll pemMaterial t = t →
        replaceAll pemMaterial (replaceAll secretAssignment (pre ++ l)) = kept ++ t := by
  obtain ⟨kept, hk, hrun⟩ := h.assignments_pre_dangling hd
  refine ⟨kept ++ redacted, fun l t hl hdrop hsecond hthird => ?_⟩
  rw [hrun l hl, hdrop, hsecond, blocks_kept hb hk, hthird, List.append_assoc]

theorem leaks_value (hd : Dangling pre) (hgap : ¬(white = [] ∧ white' = []))
    (hb : ¬beginLiteral <:+: pre) : (Form.value key white separator white').Leaks pre post := by
  obtain ⟨kept, hleak⟩ := h.leaks_dangling hd hb
  refine ⟨kept ++ gap white separator white', post, fun c hc => ?_⟩
  have hplain : Plain [c] := plain_probe hc
  have hdash : '-' ∉ [c] := (by decide : ∀ c ∈ probes, '-' ∉ [c]) c hc
  rw [redactChars, h.urls_value ho, urls_probe hc, hleak _ (gap white separator white' ++ ([c] ++ post))
    (Context.goes_opening ho h _) (opening_drop_gap ho hgap _)]
  · simp
  · rw [assignments_gap ho, h.assignments_plain hplain]
  · rw [blocks_plain (gap_no_dash ho), blocks_plain hdash, h.blocks_post]

end

/-! ### Credentials -/

section
variable {pre post key white white' scheme : List Char} {separator : Char} (h : Context pre post)
  (ho : Opens none key white separator white') (hs : IsAuthScheme scheme)
include h ho hs

/-- Only the scheme is taken for the value. -/
theorem leaks_credential (hb : ¬beginLiteral <:+: pre) :
    (Form.credential key white separator white' scheme).Leaks pre post := by
  have hplain : ∀ c ∈ probes, Plain [' ', c] := fun c hc =>
    Plain.append (t := [' ']) (by decide) (plain_probe hc)
  have hlong : ∀ c ∈ probes, Plain (scheme ++ [' ', c]) := fun c hc =>
    Plain.append hs.separator (hplain c hc)
  have hdash : ∀ c ∈ probes, '-' ∉ [' ', c] := by decide
  -- the first pass changes nothing
  have hfirst : ∀ c ∈ probes, replaceAll credentialURL
      ((Form.credential key white separator white' scheme).chars pre [c] post) =
        pre ++ (opening key white separator white' ++ (scheme ++ ([' ', c] ++ post))) := by
    intro c hc
    have hsplit : (Form.credential key white separator white' scheme).chars pre [c] post =
        pre ++ (opening key white separator white' ++ (scheme ++ [' ', c] ++ post)) := by
      simp [Form.chars, Form.before, Form.after]
    rw [hsplit, h.urls_pre, urls_opening ho, h.urls_plain (hlong c hc), List.append_assoc]
  have htail : ∀ c ∈ probes, replaceAll secretAssignment ([' ', c] ++ post) = [' ', c] ++ post ∧
      replaceAll pemMaterial ([' ', c] ++ post) = [' ', c] ++ post := by
    intro c hc
    refine ⟨h.assignments_plain (hplain c hc), ?_⟩
    rw [blocks_plain (hdash c hc), h.blocks_post]
  by_cases hd : Dangling pre
  · obtain ⟨kept, hleak⟩ := h.leaks_dangling hd hb
    by_cases hgap : white = [] ∧ white' = []
    · refine ⟨kept ++ [' '], post, fun c hc => ?_⟩
      have hdrop : (opening key white separator white' ++ (scheme ++ ([' ', c] ++ post))).dropWhile
          isValue = [' ', c] ++ post := by
        rw [opening_drop_compact ho hgap.1 hgap.2]
        exact (takeWhile_append_stop hs.value (by simp [isValue, isWhite])).2
      rw [redactChars, hfirst c hc, hleak _ _ (Context.goes_opening ho h _) hdrop (htail c hc).1
        (htail c hc).2]
      simp
    · refine ⟨kept ++ (gap white separator white' ++ (scheme ++ [' '])), post, fun c hc => ?_⟩
      have hquiet : Quiet pemMaterial none scheme ([' ', c] ++ post) :=
        pem_quiet_of_no_dashes hs.dashes (by simp)
      rw [redactChars, hfirst c hc, hleak _ _ (Context.goes_opening ho h _)
        (opening_drop_gap ho hgap _)]
      · simp
      · rw [assignments_gap ho, ← List.append_assoc scheme, h.assignments_plain (hlong c hc)]
      · rw [blocks_plain (gap_no_dash ho), blocks_quiet hquiet, (htail c hc).2]
  · refine ⟨pre ++ (key ++ white ++ separator :: (redacted ++ [' '])), post, fun c hc => ?_⟩
    rw [redactChars, hfirst c hc, h.leaks_behind ho hd hb hs.ne_nil hs.value
      (by simp [isValue, isWhite]) (htail c hc)]
    simp

end

/-! ### Blocks -/

section
variable {pre post label label' : List Char} (h : Context pre post) (hl : IsLabel label)
  (hl' : IsLabel label')
include h hl hl'

/-- A block whose header has lost its first word. -/
theorem Context.headless {c : Char} (hc : c ∈ probes) :
    replaceAll secretAssignment (' ' :: label ++ dashes ++ (c :: (pemAfter label' ++ post))) =
      ' ' :: label ++ dashes ++ (c :: (pemAfter label' ++ post)) ∧
    replaceAll pemMaterial (' ' :: label ++ dashes ++ (c :: (pemAfter label' ++ post))) =
      ' ' :: label ++ dashes ++ (c :: (pemAfter label' ++ post)) := by
  constructor
  · have hheader : Plain ([' '] ++ label ++ dashes) := hl.plain (by decide)
    have hplain : Plain ([' '] ++ label ++ dashes ++ ([c] ++ pemAfter label')) := by
      refine Plain.append hheader.separator ?_
      exact Plain.append (plain_probe hc).separator (hl'.plain (by decide))
    have hstay := h.assignments_plain hplain
    simpa using hstay
  · have hhead : ∀ d ∈ (c :: (pemAfter label' ++ post)).head?, d ≠ '-' ∧ d ≠ 'B' := by
      intro d hd
      cases hd
      exact (by decide : ∀ c ∈ probes, c ≠ '-' ∧ c ≠ 'B') c hc
    have hdash : '-' ∉ ' ' :: label := by simp [hl.dash]
    have hprobe : '-' ∉ [c] := (by decide : ∀ c ∈ probes, '-' ∉ [c]) c hc
    have hend : '-' ∉ ['E', 'N', 'D', ' '] ++ label' := by simp [hl'.dash]
    have hafter : pemAfter label' ++ post =
        dashes ++ (['E', 'N', 'D', ' '] ++ label' ++ (dashes ++ post)) := by
      rw [pemAfter, endLiteral_eq, dashes_eq]
      simp
    have hfooter : replaceAll pemMaterial (pemAfter label' ++ post) = pemAfter label' ++ post := by
      rw [hafter, blocks_quiet (pem_quiet_of_dashes (by simp)), blocks_plain hend,
        blocks_quiet (pem_quiet_of_dashes fun c hc =>
          white_forall (fun c => c ≠ '-' ∧ c ≠ 'B') (by decide) (h.after c hc)), h.blocks_post]
    rw [List.append_assoc, blocks_plain hdash, blocks_quiet (pem_quiet_of_dashes hhead)]
    exact congrArg (fun l => ' ' :: label ++ (dashes ++ l))
      ((blocks_plain hprobe _).trans (congrArg ([c] ++ ·) hfooter))

omit h hl hl' in
theorem goes_header (l : List Char) : Goes pre (pemBefore label ++ l) := by
  obtain ⟨b, hb⟩ : ∃ b, pemBefore label ++ l = '-' :: b := by
    rw [pemBefore, beginLiteral_eq]
    exact ⟨_, rfl⟩
  rw [hb]
  exact goes_dash pre b

theorem covers_pem (hd : ¬Dangling pre) (hb : ¬beginLiteral <:+: pre) :
    (Form.pem label label').Covers pre post := by
  refine ⟨pre ++ (redacted ++ post), fun s hs => ?_⟩
  have hfirst : replaceAll credentialURL ((Form.pem label label').chars pre s post) =
      pre ++ (pemBefore label ++ (replaceAll credentialURL s ++ (pemAfter label' ++ post))) :=
    (h.urls_pre _).trans (congrArg (pre ++ ·) (h.urls_block hl hl' s))
  rw [redactChars, hfirst, h.assignments_pre hd (goes_header _), h.blocks_pre hb,
    List.append_cancel_left_eq]
  exact h.settles_iff hl hl' hs.2

theorem leaks_pem (hd : Dangling pre) (hb : ¬beginLiteral <:+: pre) :
    (Form.pem label label').Leaks pre post := by
  obtain ⟨kept, hleak⟩ := h.leaks_dangling hd hb
  refine ⟨kept ++ (' ' :: label ++ dashes), pemAfter label' ++ post, fun c hc => ?_⟩
  have hfirst : replaceAll credentialURL ((Form.pem label label').chars pre [c] post) =
      pre ++ (pemBefore label ++ (c :: (pemAfter label' ++ post))) := by
    refine (h.urls_pre _).trans (congrArg (pre ++ ·) ((h.urls_block hl hl' _).trans ?_))
    rw [urls_probe hc]
    rfl
  obtain ⟨hsecond, hthird⟩ := h.headless hl hl' hc
  rw [redactChars, hfirst, hleak _ _ (goes_header _) (drop_header label _) hsecond hthird]
  simp

end

/-! ### Assigned blocks -/

section
variable {pre post key white white' label label' : List Char} {separator : Char}
  (h : Context pre post) (ho : Opens none key white separator white') (hl : IsLabel label)
  (hl' : IsLabel label')
include h ho hl hl'

theorem Context.urls_pemValue (s : List Char) : replaceAll credentialURL
    ((Form.pemValue key white separator white' label label').chars pre s post) =
      pre ++ (opening key white separator white' ++
        (pemBefore label ++ (replaceAll credentialURL s ++ (pemAfter label' ++ post)))) := by
  have hsplit : (Form.pemValue key white separator white' label label').chars pre s post =
      pre ++ (opening key white separator white' ++
        (pemBefore label ++ (s ++ (pemAfter label' ++ post)))) := by
    simp [Form.chars, Form.before, Form.after]
  rw [hsplit, h.urls_pre, urls_opening ho, h.urls_block hl hl']

/-- The prefix takes the key name, and the block stands alone. -/
theorem covers_pemValue (hd : Dangling pre) (hgap : ¬(white = [] ∧ white' = []))
    (hb : ¬beginLiteral <:+: pre) :
    (Form.pemValue key white separator white' label label').Covers pre post := by
  obtain ⟨kept, hk, hrun⟩ := h.assignments_pre_dangling hd
  refine ⟨kept ++ (redacted ++ (gap white separator white' ++ (redacted ++ post))), fun s hs => ?_⟩
  rw [redactChars, h.urls_pemValue ho hl hl', hrun _ (Context.goes_opening ho h _),
    opening_drop_gap ho hgap, assignments_gap ho, blocks_kept hb hk, blocks_plain (gap_no_dash ho),
    List.append_cancel_left_eq, List.append_cancel_left_eq, List.append_cancel_left_eq]
  exact h.settles_iff hl hl' hs.2

/-- The first word of the header is taken for the value. -/
theorem leaks_pemValue (hd : Dangling pre → white = [] ∧ white' = [])
    (hb : ¬beginLiteral <:+: pre) :
    (Form.pemValue key white separator white' label label').Leaks pre post := by
  have hfirst : ∀ c ∈ probes, replaceAll credentialURL
      ((Form.pemValue key white separator white' label label').chars pre [c] post) =
        pre ++ (opening key white separator white' ++
          (pemBefore label ++ (c :: (pemAfter label' ++ post)))) := by
    intro c hc
    rw [h.urls_pemValue ho hl hl', urls_probe hc]
    rfl
  by_cases hdangling : Dangling pre
  · obtain ⟨hw, hw'⟩ := hd hdangling
    obtain ⟨kept, hleak⟩ := h.leaks_dangling hdangling hb
    refine ⟨kept ++ (' ' :: label ++ dashes), pemAfter label' ++ post, fun c hc => ?_⟩
    obtain ⟨hsecond, hthird⟩ := h.headless hl hl' hc
    have hdrop := (opening_drop_compact ho hw hw' _).trans
      (drop_header label (c :: (pemAfter label' ++ post)))
    rw [redactChars, hfirst c hc, hleak _ _ (Context.goes_opening ho h _) hdrop hsecond hthird]
    simp
  · refine ⟨pre ++ (key ++ white ++ separator :: (redacted ++ (' ' :: label ++ dashes))),
      pemAfter label' ++ post, fun c hc => ?_⟩
    have hheader : pemBefore label ++ (c :: (pemAfter label' ++ post)) =
        ['-', '-', '-', '-', '-', 'B', 'E', 'G', 'I', 'N'] ++
          (' ' :: label ++ dashes ++ (c :: (pemAfter label' ++ post))) := by
      rw [pemBefore, beginLiteral_eq]
      simp
    rw [redactChars, hfirst c hc, hheader, h.leaks_behind ho hdangling hb (by decide) (by decide)
      (by simp [isValue, isWhite]) (h.headless hl hl' hc)]
    simp

end

/-! ## Two secrets -/

namespace Form

theorem covers {f : Form} {pre post : List Char} (hf : f.Proper) (h : Context pre post)
    (hsafe : f.Safe pre) : f.Covers pre post := by
  cases f with
  | url scheme rest => exact covers_url h hf
  | value key white separator white' => exact covers_value h hf hsafe
  | credential key white separator white' scheme => exact hsafe.elim
  | pem label label' => exact covers_pem h hf.1 hf.2 hsafe.1 hsafe.2
  | pemValue key white separator white' label label' =>
    exact covers_pemValue h hf.1 hf.2.1 hf.2.2 hsafe.1 hsafe.2.1 hsafe.2.2

theorem leaks {f : Form} {pre post : List Char} (hf : f.Proper) (h : Context pre post)
    (hb : ¬beginLiteral <:+: pre) (hsafe : ¬f.Safe pre) : f.Leaks pre post := by
  cases f with
  | url scheme rest => exact absurd trivial hsafe
  | value key white separator white' =>
    simp only [Safe, Classical.not_imp] at hsafe
    exact leaks_value h hf hsafe.1 hsafe.2 hb
  | credential key white separator white' scheme => exact leaks_credential h hf.1 hf.2.2 hb
  | pem label label' =>
    have hd : Dangling pre := by
      by_contra hd
      exact hsafe ⟨hd, hb⟩
    exact leaks_pem h hf.1 hf.2 hd hb
  | pemValue key white separator white' label label' =>
    have hd : Dangling pre → white = [] ∧ white' = [] := by
      intro hd
      by_contra hgap
      exact hsafe ⟨hd, hgap, hb⟩
    exact leaks_pemValue h hf.1 hf.2.1 hf.2.2 hd hb

/-- The probes are secrets of every form, and settled ones. -/
theorem probe_secret (f : Form) {c : Char} (hc : c ∈ probes) : f.Secret [c] ∧ f.Settled [c] := by
  have huser : ∀ c ∈ probes, [c] ≠ [] ∧ ∀ d ∈ [c], isUser d = true := by decide
  have hvalue : ∀ c ∈ probes, [c] ≠ [] ∧ ∀ d ∈ [c], isValue d = true := by decide
  have hbody : ([c] ≠ [] ∧ '-' ∉ [c]) ∧ Settles [c] :=
    ⟨(by decide : ∀ c ∈ probes, [c] ≠ [] ∧ '-' ∉ [c]) c hc, settles_probe hc⟩
  cases f with
  | url scheme rest => exact ⟨huser c hc, trivial⟩
  | value key white separator white' => exact ⟨hvalue c hc, trivial⟩
  | credential key white separator white' scheme => exact ⟨hvalue c hc, trivial⟩
  | pem label label' => exact hbody
  | pemValue key white separator white' label label' => exact hbody

theorem redactText_message (f : Form) (pre s post : List Char) :
    redactText (f.message pre s post) = String.ofList (redactChars (f.chars pre s post)) := by
  rw [redactText, message, String.toList_ofList]

theorem Covers.redactText_eq {f : Form} {pre post s s' : List Char} (h : f.Covers pre post)
    (hs : f.Secret s) (hset : f.Settled s) (hs' : f.Secret s') (hset' : f.Settled s') :
    redactText (f.message pre s post) = redactText (f.message pre s' post) := by
  obtain ⟨out, hout⟩ := h
  rw [redactText_message, redactText_message, (hout s hs).mp hset, (hout s' hs').mp hset']

theorem Covers.settled_of_eq {f : Form} {pre post s s' : List Char} (h : f.Covers pre post)
    (hs : f.Secret s) (hs' : f.Secret s') (hset' : f.Settled s')
    (heq : redactText (f.message pre s' post) = redactText (f.message pre s post)) :
    f.Settled s := by
  obtain ⟨out, hout⟩ := h
  rw [redactText_message, redactText_message] at heq
  refine (hout s hs).mpr ?_
  rw [← String.ofList_injective heq]
  exact (hout s' hs').mp hset'

theorem Leaks.redactText_ne {f : Form} {pre post : List Char} (h : f.Leaks pre post) :
    redactText (f.message pre ['x'] post) ≠ redactText (f.message pre ['q'] post) := by
  obtain ⟨out, out', hout⟩ := h
  intro heq
  rw [redactText_message, redactText_message] at heq
  have hchars := String.ofList_injective heq
  rw [hout 'x' (by decide), hout 'q' (by decide)] at hchars
  simp at hchars

end Form

/-- The value of a token. -/
def tokenForm : Form := .value ['t', 'o', 'k', 'e', 'n'] [] '=' []

theorem context_at : Context ['a', 't', ' '] [] := by
  have hurls : Quiet credentialURL none ['a', 't', ' '] [] :=
    urls_quiet_of_plain (by decide) (by decide) []
  have hassign : Quiet secretAssignment none ['a', 't', ' '] [] :=
    .cons (by decide) (.cons (by decide) (.cons (by decide) (.nil [])))
  exact ⟨by decide, by decide, ⟨hurls, hassign, pem_quiet_of_no_dash (by decide) []⟩,
    .nil [], .nil [], .nil []⟩

/-- The credential of a bearer token. -/
def bearerForm : Form :=
  .credential ['a', 'u', 't', 'h', 'o', 'r', 'i', 'z', 'a', 't', 'i', 'o', 'n'] [] ':' [' ']
    ['B', 'e', 'a', 'r', 'e', 'r']

end SakhtarWg.Redaction
