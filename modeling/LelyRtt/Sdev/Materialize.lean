import LelyRtt.Sdev.Domains

/-!
This module contains the run of the materialization over all DOMAIN values: which initializers and
flags it leaves behind, which lines it keeps, and that a second run has nothing to do.
-/

namespace LelyRtt.Sdev.Domain

open Text Dcf

/-! ### One sub-object -/

section

variable {w : WordChar} {newline : List Char} {data data' : List UInt8} {line v : Line}
  {body body' b b' : List Line}

/-- The first initializer in the lines of a sub-object holds the bytes. -/
structure Holds (w : WordChar) (body : List Line) (data : List UInt8) : Prop where
  split : ∃ b v b', body = b ++ v :: b' ∧ (∀ l ∈ b, contains ".val =".toList l = false)
    ∧ contains ".val =".toList v = true ∧ contains ".dom = NULL".toList v = false
    ∧ contains "CO_DOMAIN_C".toList v = true ∧ (if closes v then [] else bytesOf w b') = data

/-- The first flags in the lines of a sub-object have the parameter value. -/
structure Flagged (body : List Line) : Prop where
  split : ∃ b f b', body = b ++ f :: b' ∧ (∀ l ∈ b, contains ".flags = 0".toList l = false)
    ∧ contains ".flags = 0".toList f = true
    ∧ (f :: b').any (contains "CO_OBJ_FLAGS_PARAMETER_VALUE".toList) = true

/-- A line without a mark. -/
def Unmarked (line : Line) : Prop := cSub line = none ∧ cObject line = none

/-- A line with a mark begins with the name of its field. -/
theorem mark_of_skipLit {name : List Char} (h : skipLit name line = none)
    : (matchHexField name line).map (natOfDigits 16) = none := by
  rw [matchHexField, h]
  rfl

/-- What begins with blanks and another text has no field. -/
theorem skipLit_none {w name s : List Char} (hw : Blank w) (h : Begins s) (hname : dropLit name s = none)
    : skipLit name (w ++ s) = none := by
  rw [skipLit, lstrip_blank hw, lstrip_begins h, hname]

theorem skipLit_of_not_mem {name s : List Char} {c : Char} (hc : c ∈ name) (hs : c ∉ s)
    : skipLit name s = none := by
  refine Option.eq_none_iff_forall_ne_some.mpr fun r h => ?_
  rw [skipLit, dropLit_eq_some] at h
  have hmem : c ∈ lstrip s := h ▸ List.mem_append_left r hc
  exact hs ((List.dropWhile_sublist isSpace).subset hmem)

/-- The lines of an initializer have no marks. -/
theorem unmarked_domainInitializer (hnewline : Newline newline)
    : ∀ l ∈ domainInitializer (indent line) data newline, Unmarked l := by
  have hfield {l : Line} (h : skipLit ".idx".toList l = none ∧ skipLit ".subidx".toList l = none) : Unmarked l :=
    ⟨mark_of_skipLit h.2, mark_of_skipLit h.1⟩
  intro l hl
  simp only [domainInitializer, List.cons_append, List.mem_cons, List.mem_append, List.mem_map,
    List.not_mem_nil, or_false] at hl
  obtain rfl | ⟨i, _, rfl⟩ | rfl := hl
  . refine hfield ⟨skipLit_none (blank_indent line) (begins_of_head (by rfl)) ?_,
      skipLit_none (blank_indent line) (begins_of_head (by rfl)) ?_⟩
    . rfl
    . rfl
  . have hdot : '.' ∉ dataLine (indent line) newline data (8 * i) := not_mem_dataLine hnewline (by decide)
    exact hfield ⟨skipLit_of_not_mem (by decide) hdot, skipLit_of_not_mem (by decide) hdot⟩
  . refine hfield ⟨skipLit_none (blank_indent line) (begins_of_head (by rfl)) ?_,
      skipLit_none (blank_indent line) (begins_of_head (by rfl)) ?_⟩
    . rfl
    . rfl

/-- The characters of a flag line, apart from blanks. -/
theorem mem_flagLine (hnewline : Newline newline) {c : Char} (hc : c ∈ flagLine line newline)
    : isSpace c = true ∨ c ∈ "| CO_OBJ_FLAGS_PARAMETER_VALUE".toList := by
  simp only [flagLine, List.mem_append, List.mem_cons] at hc
  obtain hc | rfl | hc | hc := hc
  . exact .inl (blank_indent line c hc)
  . exact .inl (by decide)
  . exact .inr hc
  . exact .inl (hnewline.blank c hc)

theorem not_mem_flagLine (hnewline : Newline newline) {c : Char}
    (hc : isSpace c = false ∧ c ∉ "| CO_OBJ_FLAGS_PARAMETER_VALUE".toList) : c ∉ flagLine line newline := by
  intro hmem
  obtain h | h := mem_flagLine hnewline hmem
  . rw [hc.1] at h
    cases h
  . exact hc.2 h

theorem unmarked_flagLine (hnewline : Newline newline) : Unmarked (flagLine line newline) := by
  have hdot : '.' ∉ flagLine line newline := not_mem_flagLine hnewline (by decide)
  exact ⟨mark_of_skipLit (skipLit_of_not_mem (by decide) hdot),
    mark_of_skipLit (skipLit_of_not_mem (by decide) hdot)⟩

/-- A flag line does not matter to the bytes of an initializer. -/
theorem bytesOf_flagLine (hnewline : Newline newline) (b b' : List Line)
    : bytesOf w (b ++ flagLine line newline :: b') = bytesOf w (b ++ b') := by
  induction b with
  | nil =>
    have hcloses : closes (flagLine line newline) = false :=
      contains_of_not_mem '\x7d' (by decide) (not_mem_flagLine hnewline (by decide))
    have htokens : hexTokens w (flagLine line newline) = [] :=
      hexTokens_nil (not_mem_flagLine hnewline (by decide))
    rw [List.nil_append, bytesOf, hcloses, htokens]
    rfl
  | cons l b ih => rw [List.cons_append, List.cons_append, bytesOf, bytesOf, ih]

/-- A flag line does not matter to what an initializer holds. -/
theorem Holds.flagLine (hnewline : Newline newline) (h : Holds w (b ++ b') data)
    : Holds w (b ++ flagLine line newline :: b') data := by
  have hval : contains ".val =".toList (Domain.flagLine line newline) = false :=
    contains_of_not_mem 'v' (by decide) (not_mem_flagLine hnewline (by decide))
  obtain ⟨a, v, a', heq, ha, hv, hnull, hdomain, hbytes⟩ := h.split
  obtain ⟨t, rfl, rfl⟩ | ⟨t, rfl, ht⟩ := List.append_eq_append_iff.mp heq
  . refine ⟨b ++ Domain.flagLine line newline :: t, v, a', by simp, ?_, hv, hnull, hdomain, hbytes⟩
    intro l hl
    simp only [List.mem_append, List.mem_cons] at hl ha
    obtain hl | rfl | hl := hl
    . exact ha l (.inl hl)
    . exact hval
    . exact ha l (.inr hl)
  . cases t with
    | nil =>
      rw [List.nil_append] at ht
      subst ht
      refine ⟨a ++ [Domain.flagLine line newline], v, a', by simp, ?_, hv, hnull, hdomain, hbytes⟩
      intro l hl
      obtain hl | hl := List.mem_append.mp hl
      . exact ha l hl
      . rw [List.mem_singleton.mp hl]
        exact hval
    | cons v' t =>
      obtain ⟨rfl, rfl⟩ := List.cons.inj ht
      refine ⟨a, v, t ++ Domain.flagLine line newline :: b', by simp, ha, hv, hnull, hdomain, ?_⟩
      rw [bytesOf_flagLine hnewline]
      exact hbytes

/-- A new initializer holds its bytes. -/
theorem holds_domainInitializer (hnewline : Newline newline) (hb : ∀ l ∈ b, contains ".val =".toList l = false)
    : Holds w (b ++ (domainInitializer (indent line) data newline ++ b')) data := by
  obtain ⟨head, hhead⟩ : ∃ head, head
    = indent line ++ (".val = \x7b .dom = CO_DOMAIN_C(co_unsigned8_t, \x7b".toList ++ newline) := ⟨_, rfl⟩
  have hsplit : domainInitializer (indent line) data newline
      = head :: (domainInitializer (indent line) data newline).tail := by rw [hhead]; rfl
  have hcontains {p : List Char} (hp : Begins p) (hne : p ≠ [])
      : contains p head = contains p (".val = \x7b .dom = CO_DOMAIN_C(co_unsigned8_t, \x7b".toList ++ newline) := by
    rw [hhead, contains_blank (blank_indent line) hp hne]
  have hconst : contains ".val =".toList head = true ∧ contains ".dom = NULL".toList head = false
      ∧ contains "CO_DOMAIN_C".toList head = true ∧ closes head = false := by
    rw [closes, hcontains (begins_of_head (by rfl)) (by decide), hcontains (begins_of_head (by rfl)) (by decide),
      hcontains (begins_of_head (by rfl)) (by decide), hcontains (begins_of_head (by rfl)) (by decide)]
    obtain rfl | rfl := hnewline <;> decide
  refine ⟨b, head, (domainInitializer (indent line) data newline).tail ++ b', ?_, hb, hconst.1, hconst.2.1,
    hconst.2.2.1, ?_⟩
  . rw [hsplit]
    rfl
  . rw [hconst.2.2.2]
    exact bytesOf_domainInitializer hnewline line data b'

theorem Holds.not_null (h : Holds w (b ++ v :: b') data) (hb : ∀ l ∈ b, contains ".val =".toList l = false)
    (hv : contains ".val =".toList v = true) : contains ".dom = NULL".toList v = false := by
  obtain ⟨c, v', c', heq, hc, hv', hnull, _⟩ := h.split
  have hindex := findIdx?_eq_append.mpr ⟨b, v, b', rfl, rfl, hv, hb⟩
  have hindex' := findIdx?_eq_append.mpr ⟨c, v', c', heq, rfl, hv', hc⟩
  have hlength := Option.some_inj.mp (hindex.symm.trans hindex')
  obtain ⟨rfl, hrest⟩ := List.append_inj heq hlength
  obtain ⟨rfl, rfl⟩ := List.cons.inj hrest
  exact hnull

theorem Holds.unique (h : Holds w body data) (h' : Holds w body data') : data = data' := by
  obtain ⟨b, v, b', heq, hb, hv, _, _, rfl⟩ := h.split
  obtain ⟨c, v', c', heq', hc, hv', _, _, rfl⟩ := h'.split
  have hindex := findIdx?_eq_append.mpr ⟨b, v, b', heq, rfl, hv, hb⟩
  have hindex' := findIdx?_eq_append.mpr ⟨c, v', c', heq', rfl, hv', hc⟩
  have hlength := Option.some_inj.mp (hindex.symm.trans hindex')
  obtain ⟨rfl, hrest⟩ := List.append_inj (heq.symm.trans heq') hlength
  obtain ⟨rfl, rfl⟩ := List.cons.inj hrest
  rfl

end

/-! ### The edits of a sub-object -/

section

variable {w : WordChar} {newline : List Char} {data : List UInt8} {body body' : List Line}

/-- The lines of a sub-object with an initializer in place of its first one, if that is NULL. -/
inductive FilledValue (newline : List Char) (data : List UInt8) : List Line → List Line → Prop
  | keep (body : List Line) : FilledValue newline data body body
  | fill {b b' : List Line} {v : Line} : (∀ l ∈ b, contains ".val =".toList l = false) →
      contains ".val =".toList v = true → contains ".dom = NULL".toList v = true →
      FilledValue newline data (b ++ v :: b') (b ++ (domainInitializer (indent v) data newline ++ b'))

/-- The lines of a sub-object with a flag line behind its flags. -/
inductive FilledFlags (newline : List Char) : List Line → List Line → Prop
  | keep (body : List Line) : FilledFlags newline body body
  | fill {b b' : List Line} {f : Line} : contains ".flags = 0".toList f = true →
      FilledFlags newline (b ++ f :: b') (b ++ f :: flagLine f newline :: b')

/-- The lines of a sub-object with its DOMAIN value. -/
def Filled (newline : List Char) (data : List UInt8) (body body' : List Line) : Prop :=
  ∃ mid, FilledValue newline data body mid ∧ FilledFlags newline mid body'

/-- The first line is the same, and no other marked line is added. -/
structure SameMarks (body body' : List Line) : Prop where
  split : ∃ x b b', body = x :: b ∧ body' = x :: b' ∧ ∀ l ∈ b', Unmarked l ∨ l ∈ b

theorem SameMarks.refl (hne : body ≠ []) : SameMarks body body := by
  obtain ⟨x, b, rfl⟩ := List.exists_cons_of_ne_nil hne
  exact ⟨x, b, b, rfl, rfl, fun _ hl => .inr hl⟩

/-- A line with a sub-index has no value. -/
theorem no_value_of_cSub {line : Line} (h : (cSub line).isSome) : contains ".val =".toList line = false := by
  refine contains_of_not_mem 'v' (by decide) fun hmem => ?_
  rw [cSub, Option.isSome_map] at h
  obtain ⟨digits, hdigits⟩ := Option.isSome_iff_exists.mp h
  unfold matchHexField at hdigits
  simp only [Option.bind_eq_bind, Option.bind_eq_some_iff, skipLit_eq_some (begins_of_head (by rfl)
    : Begins ".subidx".toList) (by decide), skipLit_eq_some (begins_of_head (by rfl) : Begins ['=']) (by decide),
    skipLit_eq_some (begins_of_head (by rfl) : Begins ['0', 'x']) (by decide), dropLit_eq_some] at hdigits
  obtain ⟨s₀, ⟨w₀, hw₀, rfl⟩, s₁, ⟨w₁, hw₁, rfl⟩, s₂, ⟨w₂, hw₂, rfl⟩, s₃, hs₃, hrest⟩ := hdigits
  split at hrest
  next => cases hrest
  next hblank =>
    have hblank : s₃.all isSpace = true := by simpa using (not_or.mp hblank).2
    have hv : isSpace 'v' = false := by decide
    have hspace {s : List Char} (hs : Blank s) : 'v' ∉ s := by
      intro hmem
      rw [hs 'v' hmem] at hv
      cases hv
    have hdigits : 'v' ∉ s₂ := by
      rw [← List.takeWhile_append_dropWhile (p := isHex) (l := s₂), hs₃]
      simp only [List.mem_append, not_or]
      refine ⟨fun hmem => ?_, by decide, hspace ?_⟩
      . exact absurd (List.mem_takeWhile_imp hmem) (by decide)
      . simpa [Blank] using hblank
    simp only [List.mem_append] at hmem
    obtain hmem | hmem | hmem | hmem | hmem | hmem | hmem := hmem
    . exact hspace hw₀ hmem
    . exact absurd hmem (by decide)
    . exact hspace hw₁ hmem
    . exact absurd hmem (by decide)
    . exact hspace hw₂ hmem
    . exact absurd hmem (by decide)
    . exact hdigits hmem

theorem FilledValue.sameMarks (hnewline : Newline newline) (hchunk : Chunk cSub body)
    (h : FilledValue newline data body body') : SameMarks body body' := by
  cases h with
  | keep => exact SameMarks.refl hchunk.ne_nil
  | @fill b b' v hb hv =>
    cases b with
    | nil =>
      have hnone := no_value_of_cSub hchunk.key_isSome
      rw [hv] at hnone
      cases hnone
    | cons x b =>
      refine ⟨x, b ++ v :: b', b ++ (domainInitializer (indent v) data newline ++ b'), rfl, rfl, ?_⟩
      intro l hl
      simp only [List.mem_append, List.mem_cons] at hl ⊢
      obtain hl | hl | hl := hl
      . exact .inr (.inl hl)
      . exact .inl (unmarked_domainInitializer hnewline l hl)
      . exact .inr (.inr (.inr hl))

theorem FilledFlags.sameMarks (hnewline : Newline newline) (hne : body ≠ [])
    (h : FilledFlags newline body body') : SameMarks body body' := by
  cases h with
  | keep => exact SameMarks.refl hne
  | @fill b b' f =>
    have hmem (l : Line) (hl : l = flagLine f newline) : Unmarked l := hl ▸ unmarked_flagLine hnewline
    cases b with
    | nil =>
      refine ⟨f, b', flagLine f newline :: b', rfl, rfl, fun l hl => ?_⟩
      exact (List.mem_cons.mp hl).imp (hmem l) id
    | cons x b =>
      refine ⟨x, b ++ f :: b', b ++ f :: flagLine f newline :: b', rfl, rfl, fun l hl => ?_⟩
      simp only [List.mem_append, List.mem_cons] at hl ⊢
      obtain hl | hl | hl | hl := hl
      . exact .inr (.inl hl)
      . exact .inr (.inr (.inl hl))
      . exact .inl (hmem l hl)
      . exact .inr (.inr (.inr hl))

theorem SameMarks.chunk (h : SameMarks body body') (hchunk : Chunk cSub body)
    : Chunk cSub body' ∧ key cSub body' = key cSub body := by
  obtain ⟨x, b, b', rfl, rfl, hb'⟩ := h.split
  cases hchunk with
  | mk hx hb => exact ⟨.mk hx fun l hl => (hb' l hl).elim (·.1) (hb l), rfl⟩

/-- The lines that the tool works on: each has an end, and none has both kinds of initializers. -/
structure Tidy (line : Line) : Prop where
  ended : ∃ body stop, line = body ++ stop ∧ Plain body ∧ Newline stop
  single : ¬(contains ".dom = NULL".toList line = true ∧ contains "CO_DOMAIN_C".toList line = true)

theorem Newline.lineEnd (h : Newline newline) : LineEnd newline := by
  obtain rfl | rfl := h
  . exact .single (by decide)
  . exact .crlf

/-- Lines with their ends are the lines of their text. -/
theorem lines_of_tidy {lines : List Line} (h : ∀ l ∈ lines, Tidy l) : Lines lines := by
  induction lines with
  | nil => exact .nil
  | cons line lines ih =>
    obtain ⟨body, stop, rfl, hbody, hstop⟩ := (h line List.mem_cons_self).ended
    refine .cons hbody hstop.lineEnd (fun hcr => ?_) (ih fun l hl => h l (List.mem_cons_of_mem _ hl))
    obtain rfl | rfl := hstop <;> simp at hcr

theorem plain_indent {line : Line} (h : Tidy line) {p : List Char} (hp : contains p line = true)
    {c : Char} (hc : c ∈ p) (hspace : isSpace c = false) : Plain (indent line) := by
  obtain ⟨body, stop, rfl, hbody, hstop⟩ := h.ended
  have hmem : c ∈ body ++ stop := (contains_iff.mp hp).subset hc
  have hmem : c ∈ body := by
    obtain hmem | hmem := List.mem_append.mp hmem
    . exact hmem
    . rw [hstop.blank c hmem] at hspace
      cases hspace
  obtain ⟨a, b, rfl⟩ := List.append_of_mem hmem
  have hstart : indent ((a ++ c :: b) ++ stop) <+: a := by
    rw [List.append_assoc, indent, List.takeWhile_append]
    split
    . rw [List.cons_append, List.takeWhile_cons_of_neg (by simp [hspace]), List.append_nil]
    . exact List.takeWhile_prefix _
  exact hbody.sublist (hstart.sublist.trans (List.sublist_append_left a _))

/-- A line that is put together from blanks, a text of ASCII and a line end. -/
theorem Tidy.mk_line {a p : List Char} (ha : Blank a) (hplain : Plain a) (hp : Plain p)
    (hnewline : Newline newline)
    (hsingle : ¬(contains ".dom = NULL".toList (p ++ newline) = true
      ∧ contains "CO_DOMAIN_C".toList (p ++ newline) = true)) : Tidy (a ++ (p ++ newline)) where
  ended := ⟨a ++ p, newline, (List.append_assoc _ _ _).symm, hplain.append hp, hnewline⟩
  single := by
    rwa [contains_blank ha (begins_of_head (by rfl)) (by decide),
      contains_blank ha (begins_of_head (by rfl)) (by decide)]

theorem tidy_flagLine {line : Line} (hnewline : Newline newline) (hplain : Plain (indent line))
    : Tidy (flagLine line newline) := by
  refine Tidy.mk_line (p := "\t| CO_OBJ_FLAGS_PARAMETER_VALUE".toList) (blank_indent line) hplain ?_ hnewline ?_
  . simp [Plain, isBoundary]
  . obtain rfl | rfl := hnewline <;> decide

theorem plain_of_word {s : List Char} (h : ∀ c ∈ s, isWord c = true ∨ c = ',' ∨ c = ' ' ∨ c = '\t') : Plain s := by
  intro c hc
  by_contra hboundary
  have hboundary : isBoundary c = true := by simpa using hboundary
  obtain hword | rfl | rfl | rfl := h c hc
  . have hnot := isWord_of_isSpace (isSpace_of_isBoundary hboundary)
    rw [hword] at hnot
    cases hnot
  . exact absurd hboundary (by decide)
  . exact absurd hboundary (by decide)
  . exact absurd hboundary (by decide)

theorem tidy_domainInitializer {line : Line} (hnewline : Newline newline) (hplain : Plain (indent line))
    : ∀ l ∈ domainInitializer (indent line) data newline, Tidy l := by
  intro l hl
  simp only [domainInitializer, List.cons_append, List.mem_cons, List.mem_append, List.mem_map,
    List.not_mem_nil, or_false] at hl
  obtain rfl | ⟨i, _, rfl⟩ | rfl := hl
  . refine Tidy.mk_line (blank_indent line) hplain (by simp [Plain, isBoundary]) hnewline ?_
    obtain rfl | rfl := hnewline <;> decide
  . refine ⟨?_, ?_⟩
    . obtain ⟨s, hline, hs⟩ := dataLine_split (indent line) newline data (8 * i)
      rw [hline]
      exact ⟨indent line ++ s, newline, (List.append_assoc _ _ _).symm, hplain.append (plain_of_word hs), hnewline⟩
    . have hdot : '.' ∉ dataLine (indent line) newline data (8 * i) := not_mem_dataLine hnewline (by decide)
      rw [contains_of_not_mem '.' (by decide) hdot]
      simp
  . refine Tidy.mk_line (blank_indent line) hplain (by simp [Plain, isBoundary]) hnewline ?_
    obtain rfl | rfl := hnewline <;> decide

theorem Filled.tidy (hnewline : Newline newline) (h : Filled newline data body body')
    (htidy : ∀ l ∈ body, Tidy l) : ∀ l ∈ body', Tidy l := by
  obtain ⟨mid, hvalue, hflags⟩ := h
  have hmid : ∀ l ∈ mid, Tidy l := by
    cases hvalue with
    | keep => exact htidy
    | @fill b b' v hb hv =>
      have hplain : Plain (indent v) := plain_indent (htidy v (by simp)) hv (c := 'v') (by decide) (by decide)
      intro l hl
      simp only [List.mem_append] at hl
      obtain hl | hl | hl := hl
      . exact htidy l (by simp [hl])
      . exact tidy_domainInitializer hnewline hplain l hl
      . exact htidy l (by simp [hl])
  cases hflags with
  | keep => exact hmid
  | @fill b b' f hf =>
    have hplain : Plain (indent f) := plain_indent (hmid f (by simp)) hf (c := 'f') (by decide) (by decide)
    intro l hl
    simp only [List.mem_append, List.mem_cons] at hl
    obtain hl | rfl | rfl | hl := hl
    . exact hmid l (by simp [hl])
    . exact hmid l (by simp)
    . exact tidy_flagLine hnewline hplain
    . exact hmid l (by simp [hl])

theorem Filled.sameMarks (hnewline : Newline newline) (hchunk : Chunk cSub body)
    (h : Filled newline data body body') : SameMarks body body' := by
  obtain ⟨mid, hvalue, hflags⟩ := h
  have hmid := hvalue.sameMarks hnewline hchunk
  have hne : mid ≠ [] := by
    obtain ⟨x, b, b', _, rfl, _⟩ := hmid.split
    simp
  obtain ⟨x, b, b₁, rfl, hmid_eq, hb₁⟩ := hmid.split
  obtain ⟨x', b', b₂, hmid_eq', rfl, hb₂⟩ := (hflags.sameMarks hnewline hne).split
  obtain ⟨rfl, rfl⟩ := List.cons.inj (hmid_eq.symm.trans hmid_eq')
  exact ⟨x, b, b₂, rfl, rfl, fun l hl => (hb₂ l hl).elim .inl fun hmem => hb₁ l hmem⟩

/-- Flags that are put in do not matter to an initializer. -/
theorem FilledFlags.holds (hnewline : Newline newline) (h : FilledFlags newline body body')
    (hholds : Holds w body data) : Holds w body' data := by
  cases h with
  | keep => exact hholds
  | @fill b b' f =>
    rw [List.append_cons] at hholds ⊢
    exact hholds.flagLine hnewline

/-- An initializer that holds bytes is kept. -/
theorem Filled.holds {data' : List UInt8} (hnewline : Newline newline) (h : Filled newline data body body')
    (hholds : Holds w body data') : Holds w body' data' := by
  obtain ⟨mid, hvalue, hflags⟩ := h
  refine hflags.holds hnewline ?_
  cases hvalue with
  | keep => exact hholds
  | @fill b b' v hb hv hnull =>
    have hnull' := hholds.not_null hb hv
    rw [hnull] at hnull'
    cases hnull'

end

/-! ### The code on the range of a sub-object -/

/-- The sub-object of a DOMAIN value: its initializer decodes to the bytes, and its flags have the
parameter value. -/
structure Materialized (w : WordChar) (lines : List Line) (domain : DomainValue) : Prop where
  found : ∃ start stop valStart flags, domainRange lines domain.subidx = .ok (start, stop)
    ∧ firstLine ".val =".toList lines start stop = some valStart
    ∧ extractInitializerBytes w lines valStart (initializerEnd lines valStart stop) = .ok (some domain.data)
    ∧ firstLine ".flags = 0".toList lines start stop = some flags
    ∧ (segment lines flags stop).any (contains "CO_OBJ_FLAGS_PARAMETER_VALUE".toList) = true

/-- What is materialized is kept. -/
theorem Materialized.keep {w : WordChar} {lines : List Line} {domain : DomainValue} {newline : List Char}
    {changed : List Nat} (h : Materialized w lines domain)
    : materializeDomain w newline (lines, changed) domain = .ok (lines, changed) := by
  obtain ⟨start, stop, valStart, flags, hrange, hvalue, hbytes, hflags, hany⟩ := h.found
  have hvalueStep : materializeValue w newline (lines, changed) domain = .ok (lines, changed) := by
    rw [materializeValue, hrange]
    simp only [bind, Except.bind, hvalue, hbytes]
    rw [if_neg (not_not.mpr rfl)]
    rfl
  rw [materializeDomain, hvalueStep]
  change materializeFlags newline (lines, changed) domain = _
  rw [materializeFlags, hrange]
  simp only [bind, Except.bind, hflags]
  rw [if_pos hany]
  rfl

section

variable {w : WordChar} {newline : List Char} {data : List UInt8} {before body after b b' : List Line} {v : Line}

theorem firstLine_range (text : List Char)
    : firstLine text (before ++ (body ++ after)) before.length (before.length + body.length)
      = (body.findIdx? (contains text)).map (before.length + ·) := by
  rw [firstLine, segment_append]

theorem getD_range : (before ++ ((b ++ v :: b') ++ after)).getD (before.length + b.length) [] = v := by
  rw [List.append_assoc, ← List.append_assoc, ← List.length_append]
  simp

/-- The lines of the sub-object from one of them. -/
theorem segment_range (before b b' after : List Line)
    : segment (before ++ ((b ++ b') ++ after)) (before.length + b.length) (before.length + (b ++ b').length) = b' := by
  have h := segment_append (before ++ b) b' after
  rw [List.append_assoc, ← List.append_assoc b, List.length_append, Nat.add_assoc] at h
  have hlength : (b ++ b').length = b.length + b'.length := List.length_append
  rw [hlength]
  exact h

/-- Behind a line that closes it, an initializer has no bytes. -/
theorem bytesOf_take {k : Nat} (h : b.findIdx? closes = some k) : bytesOf w (b.take (k + 1)) = bytesOf w b := by
  induction b generalizing k with
  | nil => cases h
  | cons line b ih =>
    rw [List.findIdx?_cons] at h
    cases hcloses : closes line with
    | true => simp [bytesOf, hcloses]
    | false =>
      rw [hcloses] at h
      obtain ⟨k', hk', rfl⟩ := Option.map_eq_some_iff.mp h
      rw [List.take_succ_cons, bytesOf, bytesOf, hcloses, ih hk']

theorem extract_null (hnull : contains ".dom = NULL".toList v = true) (stop : Nat)
    : extractInitializerBytes w (before ++ ((b ++ v :: b') ++ after)) (before.length + b.length) stop = .ok none := by
  rw [extractInitializerBytes, getD_range]
  simp only [hnull, if_true]

variable (w before b b' after) in
theorem extract_bytes (hnull : contains ".dom = NULL".toList v = false)
    (hdomain : contains "CO_DOMAIN_C".toList v = true)
    : extractInitializerBytes w (before ++ ((b ++ v :: b') ++ after)) (before.length + b.length)
        (initializerEnd (before ++ ((b ++ v :: b') ++ after)) (before.length + b.length)
          (before.length + (b ++ v :: b').length))
      = .ok (some (if closes v then [] else bytesOf w b')) := by
  rw [extractInitializerBytes, initializerEnd, getD_range, segment_range]
  simp only [hnull, hdomain, Bool.false_eq_true, if_false, Bool.not_true, if_true, List.findIdx?_cons,
    Except.ok.injEq, Option.some_inj]
  have hrest (n : Nat) : segment (before ++ ((b ++ v :: b') ++ after)) (before.length + b.length + 1)
      (before.length + b.length + 1 + n) = (b' ++ after).take n := by
    rw [Text.segment, Nat.add_sub_cancel_left, List.append_cons b v b', List.append_assoc, ← List.append_assoc before,
      List.drop_left']
    simp [Nat.add_assoc]
  cases hcloses : closes v with
  | true =>
    have hnil := hrest 0
    simp only [if_true, Option.map_some, Option.getD_some]
    rw [Nat.add_zero] at hnil ⊢
    rw [hnil]
    rfl
  | false =>
    simp only [Bool.false_eq_true, if_false, Option.map_map]
    cases hindex : b'.findIdx? closes with
    | none =>
      have hall := hrest b'.length
      rw [List.take_left] at hall
      have hstop : before.length + (b ++ v :: b').length = before.length + b.length + 1 + b'.length := by
        simp only [List.length_append, List.length_cons]
        omega
      rw [Option.map_none, Option.getD_none, hstop, hall]
    | some k =>
      obtain ⟨c, l, c', hb', hlength, _⟩ := findIdx?_eq_append.mp hindex
      have htake := hrest (k + 1)
      rw [List.take_append_of_le_length (by rw [hb', ← hlength]; simp)] at htake
      rw [Option.map_some, Option.getD_some, Function.comp_apply,
        show before.length + b.length + (k + 1) + 1 = before.length + b.length + 1 + (k + 1) by omega, htake,
        bytesOf_take hindex]

theorem Holds.materialized {domain : DomainValue} (hholds : Holds w body domain.data) (hflagged : Flagged body)
    (hrange : domainRange (before ++ (body ++ after)) domain.subidx
      = .ok (before.length, before.length + body.length))
    : Materialized w (before ++ (body ++ after)) domain := by
  obtain ⟨c, f, c', hflags, hc, hf, hany⟩ := hflagged.split
  obtain ⟨b, v, b', rfl, hb, hv, hnull, hdomain, hbytes⟩ := hholds.split
  refine ⟨before.length, before.length + (b ++ v :: b').length, before.length + b.length,
    before.length + c.length, hrange, ?_, ?_, ?_, ?_⟩
  . rw [firstLine_range, findIdx?_eq_append.mpr ⟨b, v, b', rfl, rfl, hv, hb⟩]
    rfl
  . rw [extract_bytes _ _ _ _ _ hnull hdomain, hbytes]
  . rw [firstLine_range, findIdx?_eq_append.mpr ⟨c, f, c', hflags, rfl, hf, hc⟩]
    rfl
  . rw [hflags, segment_range]
    exact hany

/-- What the first half of the loop does. -/
theorem materializeValue_ok {domain : DomainValue} {lines' : List Line} {changed changed' : List Nat}
    (htidy : ∀ l ∈ body, Tidy l)
    (hrange : domainRange (before ++ (body ++ after)) domain.subidx
      = .ok (before.length, before.length + body.length))
    (h : materializeValue w newline (before ++ (body ++ after), changed) domain = .ok (lines', changed'))
    (hnewline : Newline newline)
    : ∃ body', lines' = before ++ (body' ++ after) ∧ FilledValue newline domain.data body body'
      ∧ Holds w body' domain.data ∧ ∀ data, Holds w body data → body' = body := by
  obtain ⟨⟨start, stop⟩, hrange', h⟩ := bind_eq_ok.mp h
  rw [hrange] at hrange'
  cases hrange'
  simp only [firstLine_range] at h
  cases hindex : body.findIdx? (contains ".val =".toList) with
  | none =>
    rw [hindex] at h
    cases h
  | some k =>
    obtain ⟨b, v, b', rfl, rfl, hv, hb⟩ := findIdx?_eq_append.mp hindex
    rw [hindex, Option.map_some] at h
    obtain ⟨current, hcurrent, h⟩ := bind_eq_ok.mp h
    cases hnull : contains ".dom = NULL".toList v with
    | true =>
      rw [extract_null hnull] at hcurrent
      cases hcurrent
      have hdomain : contains "CO_DOMAIN_C".toList v = false := by
        by_contra hdomain
        exact (htidy v (by simp)).single ⟨hnull, by simpa using hdomain⟩
      rw [initializerEnd, getD_range, hdomain] at h
      cases h
      refine ⟨b ++ (domainInitializer (indent v) domain.data newline ++ b'), ?_, .fill hb hv hnull,
        holds_domainInitializer hnewline hb, ?_⟩
      . have htake : (before ++ ((b ++ v :: b') ++ after)).take (before.length + b.length) = before ++ b := by
          rw [List.append_assoc, ← List.append_assoc, ← List.length_append, List.take_left]
        have hdrop : (before ++ ((b ++ v :: b') ++ after)).drop (before.length + b.length + 1) = b' ++ after := by
          rw [List.append_cons b v b', List.append_assoc, ← List.append_assoc before, List.drop_left']
          simp [Nat.add_assoc]
        simp only [Bool.false_eq_true, if_false]
        rw [htake, hdrop]
        simp only [List.append_assoc]
      . intro data hholds
        have hnull' := hholds.not_null hb hv
        rw [hnull] at hnull'
        cases hnull'
    | false =>
      cases hdomain : contains "CO_DOMAIN_C".toList v with
      | false =>
        rw [extractInitializerBytes, getD_range] at hcurrent
        simp only [hnull, hdomain, Bool.false_eq_true, if_false, Bool.not_false, if_true] at hcurrent
        cases hcurrent
      | true =>
        rw [extract_bytes _ _ _ _ _ hnull hdomain] at hcurrent
        cases hcurrent
        change (if (if closes v then [] else bytesOf w b') ≠ domain.data then _ else _) = _ at h
        by_cases heq : (if closes v then [] else bytesOf w b') = domain.data
        . rw [if_neg (not_not.mpr heq)] at h
          cases h
          exact ⟨b ++ v :: b', rfl, .keep _, ⟨b, v, b', rfl, hb, hv, hnull, hdomain, heq⟩, fun _ _ => rfl⟩
        . rw [if_pos heq] at h
          cases h

/-- What the second half of the loop does. -/
theorem materializeFlags_ok {domain : DomainValue} {lines' : List Line} {changed changed' : List Nat}
    (hrange : domainRange (before ++ (body ++ after)) domain.subidx
      = .ok (before.length, before.length + body.length))
    (h : materializeFlags newline (before ++ (body ++ after), changed) domain = .ok (lines', changed'))
    : ∃ body', lines' = before ++ (body' ++ after) ∧ FilledFlags newline body body' ∧ Flagged body'
      ∧ (Flagged body → body' = body) := by
  obtain ⟨⟨start, stop⟩, hrange', h⟩ := bind_eq_ok.mp h
  rw [hrange] at hrange'
  cases hrange'
  simp only [firstLine_range] at h
  cases hindex : body.findIdx? (contains ".flags = 0".toList) with
  | none =>
    rw [hindex] at h
    cases h
  | some k =>
    obtain ⟨b, f, b', rfl, rfl, hf, hb⟩ := findIdx?_eq_append.mp hindex
    rw [hindex] at h
    simp only [Option.map_some, segment_range] at h
    split at h
    next hany =>
      cases h
      exact ⟨b ++ f :: b', rfl, .keep _, ⟨b, f, b', rfl, hb, hf, hany⟩, fun _ => rfl⟩
    next hany =>
      cases h
      have hcut : before ++ ((b ++ f :: b') ++ after) = (before ++ (b ++ [f])) ++ (b' ++ after) := by simp
      have hlength : (before ++ (b ++ [f])).length = before.length + b.length + 1 := by
        simp [Nat.add_assoc]
      refine ⟨b ++ f :: flagLine f newline :: b', ?_, .fill hf, ⟨b, f, flagLine f newline :: b', rfl, hb, hf, ?_⟩, ?_⟩
      . rw [getD_range, hcut, ← hlength, List.take_left, List.drop_left]
        simp
      . have hflag : contains "CO_OBJ_FLAGS_PARAMETER_VALUE".toList (flagLine f newline) = true := by
          rw [contains_iff]
          exact ⟨indent f ++ "\t| ".toList, newline, by simp [flagLine]⟩
        rw [List.any_cons, List.any_cons, hflag, Bool.true_or, Bool.or_true]
      . intro hflagged
        obtain ⟨c, f', c', heq, hc, hf', hany'⟩ := hflagged.split
        have hindex' := findIdx?_eq_append.mpr ⟨c, f', c', heq, rfl, hf', hc⟩
        have hlength := Option.some_inj.mp (hindex.symm.trans hindex')
        obtain ⟨rfl, hrest⟩ := List.append_inj heq hlength
        rw [hrest] at hany
        exact absurd hany' hany

end

/-! ### The object -/

/-- The lines of the object 1F22: first those before its sub-objects, then each sub-object. -/
structure Shape (lines before first : List Line) (subs : List (List Line)) (after : List Line) : Prop where
  lines : lines = before ++ ((first ++ subs.flatten) ++ after)
  object : Chunk cObject (first ++ subs.flatten)
  index : key cObject (first ++ subs.flatten) = some 0x1f22
  found : ∀ body, Chunk cObject body → key cObject body = some 0x1f22 →
    findRange cObject 0x1f22 (before ++ (body ++ after)) 0 none
      = some (before.length, before.length + body.length)
  chunked : Chunked cSub (first ++ subs.flatten) first subs

/-- The place of a sub-object among those of the object. -/
def place (subs : List (List Line)) (subidx : Nat) : Option Nat :=
  subs.findIdx? fun body => key cSub body = some subidx

section

variable {newline : List Char} {data : List UInt8} {lines before first after body body' : List Line}
  {subs subs' : List (List Line)} {subidx k start stop : Nat}

/-- Where an object is found, the lines have its shape. -/
theorem exists_shape (h : findObjectRange lines 0x1f22 = .ok (start, stop))
    : ∃ before first subs after, Shape lines before first subs after := by
  obtain ⟨unmarked, chunks, hchunked⟩ := exists_chunked cObject lines
  have hfind : findRange cObject 0x1f22 lines 0 none = some (start, stop) := by
    unfold findObjectRange at h
    split at h
    next hfind =>
      cases h
      exact hfind
    next => cases h
  rw [hchunked.findRange] at hfind
  obtain ⟨k, hk, _⟩ := Option.map_eq_some_iff.mp hfind
  obtain ⟨a, object, b, rfl, hlength, hkey, ha⟩ := findIdx?_eq_append.mp hk
  obtain ⟨first, subs, hsubs⟩ := exists_chunked cSub object
  refine ⟨unmarked ++ a.flatten, first, subs, b.flatten, ?_, ?_, ?_, ?_, ?_⟩
  . rw [hchunked.list, ← hsubs.list]
    simp
  . rw [← hsubs.list]
    exact hchunked.chunk object (by simp)
  . rw [← hsubs.list]
    simpa using hkey
  . intro body hbody hindex
    have hbodies : Chunked cObject ((unmarked ++ a.flatten) ++ (body ++ b.flatten)) unmarked (a ++ body :: b) := by
      refine ⟨by simp, hchunked.before, fun c hc => ?_⟩
      simp only [List.mem_append, List.mem_cons] at hc
      obtain hc | rfl | hc := hc
      . exact hchunked.chunk c (by simp [hc])
      . exact hbody
      . exact hchunked.chunk c (by simp [hc])
    rw [hbodies.findRange, findIdx?_eq_append.mpr ⟨a, body, b, rfl, rfl, by simpa using hindex, ha⟩]
    rw [Option.map_some, List.take_left, List.append_cons a body b, List.take_left']
    . simp [Nat.add_assoc]
    . simp
  . rw [← hsubs.list]
    exact hsubs

/-- The range of a sub-object is that of its place. -/
theorem Shape.range (h : Shape lines before first subs after) (subidx : Nat)
    : domainRange lines subidx = match place subs subidx with
      | some k => .ok ((before ++ (first ++ (subs.take k).flatten)).length,
          (before ++ (first ++ (subs.take (k + 1)).flatten)).length)
      | none => .error (.missingSub subidx) := by
  have hobject : findObjectRange lines 0x1f22 = .ok (before.length, before.length + (first ++ subs.flatten).length) := by
    rw [findObjectRange, h.lines, h.found _ h.object h.index]
  rw [domainRange, hobject]
  change findSubRange lines _ _ subidx = _
  rw [findSubRange, h.lines, segment_append, h.chunked.findRange]
  cases hplace : place subs subidx with
  | none =>
    rw [place] at hplace
    simp only [hplace, Option.map_none]
  | some k =>
    rw [place] at hplace
    simp only [hplace, Option.map_some, List.length_append, Nat.add_assoc]

/-- A sub-object at its place, as a range of lines. -/
structure Shape.At (before first : List Line) (subs : List (List Line)) (after : List Line) (subidx k : Nat)
    (body front back : List Line) : Prop where
  sub : subs[k]? = some body
  mark : key cSub body = some subidx
  eq : front = before ++ (first ++ (subs.take k).flatten)
  split : ∀ body', before ++ ((first ++ (subs.set k body').flatten) ++ after) = front ++ (body' ++ back)

theorem Shape.at (h : Shape lines before first subs after) (hplace : place subs subidx = some k)
    : ∃ body front back, Shape.At before first subs after subidx k body front back
      ∧ lines = front ++ (body ++ back)
      ∧ domainRange lines subidx = .ok (front.length, front.length + body.length) := by
  obtain ⟨a, body, b, rfl, rfl, hkey, ha⟩ := findIdx?_eq_append.mp hplace
  refine ⟨body, before ++ (first ++ a.flatten), b.flatten ++ after, ⟨by simp, by simpa using hkey, by simp, ?_⟩,
    ?_, ?_⟩
  . intro body'
    rw [List.set_append_right _ _ (Nat.le_refl _)]
    simp
  . rw [h.lines]
    simp
  . rw [h.range, hplace]
    simp only [List.take_left]
    rw [List.append_cons a body b, List.take_left' (by simp)]
    simp [Nat.add_assoc]

/-- The object keeps its shape where a sub-object keeps its marks. -/
theorem Shape.set (h : Shape lines before first subs after) (hsub : subs[k]? = some body)
    (hmarks : SameMarks body body')
    : Shape (before ++ ((first ++ (subs.set k body').flatten) ++ after)) before first (subs.set k body') after := by
  obtain ⟨hk, hbody⟩ := List.getElem?_eq_some_iff.mp hsub
  have hsplit : subs = subs.take k ++ body :: subs.drop (k + 1) := by
    rw [← hbody, List.cons_getElem_drop_succ, List.take_append_drop]
  have hset : subs.set k body' = subs.take k ++ body' :: subs.drop (k + 1) := by
    rw [List.set_eq_take_append_cons_drop, if_pos hk]
  have hchunk : Chunk cSub body := h.chunked.chunk body (List.mem_of_getElem? hsub)
  obtain ⟨x, b, b', rfl, rfl, hb'⟩ := hmarks.split
  have hobject := h.object
  have hindex := h.index
  have hflatten (body : List Line) : first ++ (subs.take k ++ body :: subs.drop (k + 1)).flatten
      = (first ++ (subs.take k).flatten) ++ (body ++ (subs.drop (k + 1)).flatten) := by simp
  rw [hsplit, hflatten] at hobject hindex
  have hedit := hobject.edit b' fun l hl => (hb' l hl).imp (·.2) id
  rw [← hflatten, ← hset] at hedit
  refine ⟨rfl, hedit.1, ?_, h.found, h.chunked.set (hmarks.chunk hchunk).1⟩
  rw [hedit.2]
  exact hindex

theorem place_set (hsub : subs[k]? = some body) (hkey : key cSub body' = key cSub body) (subidx : Nat)
    : place (subs.set k body') subidx = place subs subidx := by
  have hmap : (subs.set k body').map (key cSub) = subs.map (key cSub) := by
    rw [List.map_set, hkey]
    obtain ⟨hk, hbody⟩ := List.getElem?_eq_some_iff.mp hsub
    rw [← hbody, ← List.getElem_map (key cSub) (h := by simpa using hk), List.set_getElem_self]
  have hplace (subs : List (List Line)) : place subs subidx
      = (subs.map (key cSub)).findIdx? fun k => k = some subidx := by
    rw [place, List.findIdx?_map]
    rfl
  rw [hplace, hplace, hmap]

end

end LelyRtt.Sdev.Domain
