import LelyRtt.Dcf.Compact

/-!
This module contains what the compaction rests on: a value that is replaced is read back, the line of it
keeps its place in its section, and the sections of a text are chunks of its lines.
-/

namespace LelyRtt.Dcf

open Text

/-! ### Lines with a key and a value -/

/-- What `KEY_VALUE_RE` makes of a line. -/
structure IsKeyValue (kv : KeyValue) (line : List Char) : Prop where
  line : line = kv.head ++ (kv.value ++ kv.stop)
  head : ∃ name w, name ≠ [] ∧ '=' ∉ name ∧ Blank w ∧ kv.head = name ++ '=' :: w ∧ kv.key = strip name
  begins : Begins (kv.value ++ kv.stop)
  stop : splitEnd (kv.value ++ kv.stop) = (kv.value, kv.stop)

section

variable {line s value : List Char} {kv : KeyValue}

theorem splitEnd_append (s : List Char) : (splitEnd s).1 ++ (splitEnd s).2 = s := by
  unfold splitEnd
  split
  next h =>
    obtain ⟨a, rfl⟩ := List.isSuffixOf_iff_suffix.mp h
    simp
  next =>
    split
    next h =>
      obtain ⟨a, rfl⟩ := List.isSuffixOf_iff_suffix.mp h
      simp
    next => simp

theorem matchKeyValue_eq_some : matchKeyValue line = some kv ↔ IsKeyValue kv line := by
  unfold matchKeyValue
  constructor
  . intro h
    split at h
    next => cases h
    next c rest hrest =>
      change (if line.takeWhile (· ≠ '=') = [] then _ else _) = _ at h
      by_cases hne : line.takeWhile (· ≠ '=') = []
      . rw [if_pos hne] at h
        cases h
      . obtain ⟨value, stop, hstop⟩ : ∃ value stop, splitEnd (lstrip rest) = (value, stop) := ⟨_, _, rfl⟩
        rw [if_neg hne, hstop] at h
        cases h
        have hc : c = '=' := by
          have hnot := List.head?_dropWhile_not (· ≠ '=') line
          rw [hrest] at hnot
          simpa using hnot
        subst hc
        have hsplit := splitEnd_append (lstrip rest)
        rw [hstop] at hsplit
        refine ⟨?_, ⟨_, rest.takeWhile isSpace, hne, ?_, fun c hc => List.mem_takeWhile_imp hc, rfl, rfl⟩, ?_, ?_⟩
        . have hline : line = line.takeWhile (· ≠ '=') ++ '=' :: rest := by
            rw [← hrest, List.takeWhile_append_dropWhile]
          have hrest₂ : rest = rest.takeWhile isSpace ++ lstrip rest := List.takeWhile_append_dropWhile.symm
          nth_rewrite 1 [hline, hrest₂]
          simp only [hsplit, List.append_assoc, List.cons_append]
        . intro hmem
          simpa using List.mem_takeWhile_imp hmem
        . simp only [hsplit]
          exact begins_lstrip rest
        . simp only [hsplit, hstop]
  . rintro ⟨hline, ⟨name, w, hne, hname, hw, hhead, hkey⟩, hbegins, hstop⟩
    have htake : line.takeWhile (· ≠ '=') = name ∧ line.dropWhile (· ≠ '=') = '=' :: (w ++ (kv.value ++ kv.stop)) := by
      have hall : ∀ c ∈ name, (decide (c ≠ '=')) = true := by
        intro c hc
        simp only [decide_eq_true_eq]
        rintro rfl
        exact hname hc
      rw [hline, hhead, List.append_assoc, List.cons_append, List.takeWhile_append_of_pos hall,
        List.dropWhile_append_of_pos hall]
      simp
    have hblank : (w ++ (kv.value ++ kv.stop)).takeWhile isSpace = w := by
      rw [List.takeWhile_append_of_pos hw]
      generalize kv.value ++ kv.stop = tail at hbegins
      cases tail with
      | nil => simp
      | cons c tail => simp [hbegins c rfl]
    simp only [htake.2, htake.1]
    rw [if_neg hne, lstrip_blank hw, lstrip_begins hbegins, hstop, hblank, ← hhead, ← hkey]

/-- A text that is written as a value. -/
structure Written (value : List Char) : Prop where
  ne_nil : value ≠ []
  solid : ∀ c ∈ value, isSpace c = false ∧ c ≠ ']'

theorem Written.begins (h : Written value) : Begins value :=
  fun c hc => (h.solid c (List.mem_of_mem_head? hc)).1

theorem Written.last (h : Written value) : ∀ c ∈ value.getLast?, isSpace c = false ∧ c ≠ ']' :=
  fun c hc => h.solid c (List.mem_of_mem_getLast? hc)

/-- The line ends of `KEY_VALUE_RE`. -/
theorem IsKeyValue.stop_cases (h : IsKeyValue kv line) : kv.stop = [] ∨ kv.stop = ['\n'] ∨ kv.stop = ['\r', '\n'] := by
  have hstop := h.stop
  unfold splitEnd at hstop
  split at hstop
  . exact .inr (.inr (Prod.mk.inj hstop).2.symm)
  . split at hstop
    . exact .inr (.inl (Prod.mk.inj hstop).2.symm)
    . exact .inl (Prod.mk.inj hstop).2.symm

theorem Written.plain (h : Written value) : Plain value := by
  intro d hd
  by_contra hboundary
  have hsolid := (h.solid d hd).1
  rw [isSpace_of_isBoundary (by simpa using hboundary)] at hsolid
  cases hsolid

/-- The line end behind a plain text is split off. -/
theorem splitEnd_plain {stop : List Char} (h : Plain value)
    (hstop : stop = [] ∨ stop = ['\n'] ∨ stop = ['\r', '\n']) : splitEnd (value ++ stop) = (value, stop) := by
  have hnot {t : List Char} {c : Char} (hc : isBoundary c = true) : ¬(t ++ [c]).isSuffixOf value := by
    rw [List.isSuffixOf_iff_suffix]
    rintro ⟨a, ha⟩
    have hplain := h c (by rw [← ha]; simp)
    rw [hc] at hplain
    cases hplain
  obtain rfl | rfl | rfl := hstop
  . have hcrlf : ¬['\r', '\n'].isSuffixOf value := hnot (t := ['\r']) (c := '\n') (by decide)
    have hlf : ¬['\n'].isSuffixOf value := hnot (t := []) (c := '\n') (by decide)
    rw [List.append_nil, splitEnd, if_neg hcrlf, if_neg hlf]
  . have hcrlf : ¬['\r', '\n'].isSuffixOf (value ++ ['\n']) := by
      rw [List.isSuffixOf_iff_suffix]
      rintro ⟨a, ha⟩
      have heq : (a ++ ['\r']) ++ ['\n'] = value ++ ['\n'] := by rw [← ha]; simp
      have hplain := h '\r' (by rw [← List.append_cancel_right heq]; simp)
      exact absurd hplain (by decide)
    rw [splitEnd, if_neg hcrlf, if_pos (List.isSuffixOf_iff_suffix.mpr (List.suffix_append _ _))]
    simp
  . rw [splitEnd, if_pos (List.isSuffixOf_iff_suffix.mpr (List.suffix_append _ _))]
    simp

/-- A value that is replaced is read back. -/
theorem IsKeyValue.replace (h : IsKeyValue kv line) (hvalue : Written value)
    : IsKeyValue { kv with value := value } (kv.head ++ (value ++ kv.stop)) where
  line := rfl
  head := h.head
  begins := hvalue.begins.append hvalue.ne_nil _
  stop := splitEnd_plain hvalue.plain h.stop_cases

/-- The last character of a section line is its bracket, or a blank. -/
theorem sectionName_last {name : List Char} (h : sectionName s = some name)
    : ∀ c ∈ s.getLast?, isSpace c = true ∨ c = ']' := by
  unfold sectionName at h
  simp only [Option.bind_eq_bind, Option.bind_eq_some_iff, skipLit_eq_some (begins_of_head (by rfl) : Begins ['['])
    (by decide), dropLit_eq_some] at h
  obtain ⟨s₁, ⟨w, _, rfl⟩, s₂, hs₂, hname⟩ := h
  split at hname
  next => cases hname
  next hblank =>
    have hblank : s₂.all isSpace = true := by simpa using (not_or.mp hblank).2
    intro c hc
    have hs₁ : s₁ = s₁.takeWhile (· ≠ ']') ++ ([']'] ++ s₂) := by
      rw [← hs₂, List.takeWhile_append_dropWhile]
    rw [hs₁, ← List.append_assoc, ← List.append_assoc, ← List.append_assoc] at hc
    cases hs₂' : s₂ with
    | nil =>
      rw [hs₂', List.append_nil, List.getLast?_concat] at hc
      cases hc
      exact .inr rfl
    | cons c' tail =>
      have hne : s₂ ≠ [] := by rw [hs₂']; simp
      rw [List.getLast?_append_of_ne_nil _ hne] at hc
      exact .inl (List.all_eq_true.mp hblank c (List.mem_of_mem_getLast? hc))

/-- A line with a value that is written is no section line. -/
theorem sectionMark_written {head stop : List Char} (hvalue : Written value)
    (hstop : stop = [] ∨ stop = ['\n'] ∨ stop = ['\r', '\n']) : sectionMark (head ++ (value ++ stop)) = none := by
  have hends : rstripEnd (head ++ (value ++ stop)) = head ++ value := by
    have hkeep : ∀ c ∈ (head ++ value).getLast?, (decide (c = '\r' ∨ c = '\n')) = false := by
      intro c hc
      rw [List.getLast?_append_of_ne_nil _ hvalue.ne_nil] at hc
      have hsolid := (hvalue.last c hc).1
      simp only [decide_eq_false_iff_not, not_or]
      refine ⟨?_, ?_⟩
      . rintro rfl
        exact absurd hsolid (by decide)
      . rintro rfl
        exact absurd hsolid (by decide)
    rw [rstripEnd, ← List.append_assoc, rdropWhile_append (by simp [hvalue.ne_nil]) hkeep]
    obtain rfl | rfl | rfl := hstop <;> simp [List.rdropWhile]
  refine Option.eq_none_iff_forall_ne_some.mpr fun name hname => ?_
  rw [sectionMark, hends] at hname
  obtain ⟨c, hc⟩ : ∃ c, value.getLast? = some c := by
    cases hlast : value.getLast? with
    | none => exact absurd (List.getLast?_eq_none_iff.mp hlast) hvalue.ne_nil
    | some c => exact ⟨c, rfl⟩
  have hlast := sectionName_last hname c (by rw [List.getLast?_append_of_ne_nil _ hvalue.ne_nil, hc]; rfl)
  obtain ⟨hspace, hbracket⟩ := hvalue.last c hc
  obtain h | h := hlast
  . rw [hspace] at h
    cases h
  . exact hbracket h

end

/-! ### Sections as chunks -/

/-- The name in the first line of a section. -/
def nameOf (body : List (List Char)) : List Char := (key sectionMark body).getD []

/-- The sections of chunks, the first of which begins at `start`. -/
def chunkSections : Nat → List (List (List Char)) → List Section
  | _, [] => []
  | start, body :: bodies => ⟨nameOf body, start, start + body.length⟩ :: chunkSections (start + body.length) bodies

/-- The keys and values of the lines of a section. -/
def bodyKeyValues (body : List (List Char)) : List (KeyValue × Nat) := keyValues body.tail 1

def bodyValues (cf : CaseFold) (body : List (List Char)) : Values :=
  dictOf ((bodyKeyValues body).map fun (kv, i) => (cf.casefold kv.key, (strip kv.value, i)))

def bodyNumericKeys (cf : CaseFold) (body : List (List Char)) : List Nat :=
  (bodyKeyValues body).filterMap fun (kv, _) => numericKey cf kv

section

variable {lines before after body l : List (List Char)} {bodies : List (List (List Char))} {i n : Nat}
  {cf : CaseFold}

theorem sectionStarts_unmarked (h : ∀ x ∈ l, sectionMark x = none) (rest : List (List Char)) (i : Nat)
    : sectionStarts (l ++ rest) i = sectionStarts rest (i + l.length) := by
  induction l generalizing i with
  | nil => rfl
  | cons x l ih =>
    rw [List.cons_append, sectionStarts, h x List.mem_cons_self]
    simp only
    rw [ih fun y hy => h y (List.mem_cons_of_mem _ hy), List.length_cons, Nat.add_assoc, Nat.add_comm 1]

theorem sectionStarts_chunks (h : ∀ body ∈ bodies, Chunk sectionMark body) (i : Nat)
    : sectionStarts bodies.flatten i = (chunkSections i bodies).map fun s => (s.name, s.start) := by
  induction bodies generalizing i with
  | nil => rfl
  | cons body bodies ih =>
    cases h body List.mem_cons_self with
    | @mk x body hx hbody =>
      obtain ⟨name, hname⟩ := Option.isSome_iff_exists.mp hx
      rw [List.flatten_cons, List.cons_append, sectionStarts, hname]
      simp only
      rw [sectionStarts_unmarked hbody, ih fun c hc => h c (List.mem_cons_of_mem _ hc)]
      simp [chunkSections, nameOf, key, hname, Nat.add_assoc, Nat.add_comm 1]

theorem sectionEnds_chunks (n : Nat) (bodies : List (List (List Char)))
    : sectionEnds (n + bodies.flatten.length) ((chunkSections n bodies).map fun s => (s.name, s.start))
      = chunkSections n bodies := by
  induction bodies generalizing n with
  | nil => rfl
  | cons body bodies ih =>
    cases bodies with
    | nil => simp [chunkSections, sectionEnds]
    | cons body' bodies =>
      have hrest := ih (n + body.length)
      rw [List.flatten_cons, List.length_append, ← Nat.add_assoc]
      simp only [chunkSections, List.map_cons, sectionEnds] at hrest ⊢
      rw [hrest]

/-- The sections of a text are its chunks. -/
theorem collectSections_chunked (h : Chunked sectionMark lines before bodies)
    : collectSections lines = chunkSections before.length bodies := by
  rw [collectSections, h.list, sectionStarts_unmarked h.before, sectionStarts_chunks h.chunk, List.length_append,
    Nat.zero_add, sectionEnds_chunks]

theorem keyValues_shift (l : List (List Char)) (n i : Nat)
    : keyValues l (n + i) = (keyValues l i).map fun (kv, j) => (kv, n + j) := by
  induction l generalizing i with
  | nil => rfl
  | cons line l ih =>
    rw [keyValues, keyValues, Nat.add_assoc, ih]
    cases matchKeyValue line <;> rfl

theorem sectionKeyValues_body (name : List Char) (hne : body ≠ [])
    : sectionKeyValues (before ++ (body ++ after)) ⟨name, before.length, before.length + body.length⟩
      = (bodyKeyValues body).map fun (kv, i) => (kv, before.length + i) := by
  obtain ⟨x, rest, rfl⟩ := List.exists_cons_of_ne_nil hne
  have hsegment : segment (before ++ ((x :: rest) ++ after)) (before.length + 1)
      (before.length + (x :: rest).length) = rest := by
    have h := segment_append (before ++ [x]) rest after
    simp only [List.length_append, List.length_singleton, List.append_assoc, List.singleton_append] at h
    rw [List.length_cons, Nat.add_comm rest.length, ← Nat.add_assoc]
    exact h
  rw [sectionKeyValues, hsegment, keyValues_shift]
  rfl

theorem sectionValues_body (name : List Char) (hne : body ≠ []) (k : List Char)
    : (sectionValues cf (before ++ (body ++ after)) ⟨name, before.length, before.length + body.length⟩).lookup k
      = ((bodyValues cf body).lookup k).map fun (v, i) => (v, before.length + i) := by
  rw [sectionValues, sectionKeyValues_body name hne, List.map_map, bodyValues,
    ← lookup_dictOf_map (fun p : List Char × Nat => (p.1, before.length + p.2)), List.map_map]
  rfl

theorem numericValueKeys_body (name : List Char) (hne : body ≠ [])
    : numericValueKeys cf (before ++ (body ++ after)) ⟨name, before.length, before.length + body.length⟩
      = bodyNumericKeys cf body := by
  rw [numericValueKeys, sectionKeyValues_body name hne, List.filterMap_map]
  rfl

/-- The items of a section stand behind its first line. -/
theorem mem_keyValues {l : List (List Char)} {i j : Nat} {kv : KeyValue} (h : (kv, j) ∈ keyValues l i)
    : i ≤ j ∧ ∃ line, l[j - i]? = some line ∧ matchKeyValue line = some kv := by
  induction l generalizing i with
  | nil => cases h
  | cons line l ih =>
    rw [keyValues] at h
    have hrest (h : (kv, j) ∈ keyValues l (i + 1))
        : i ≤ j ∧ ∃ line', (line :: l)[j - i]? = some line' ∧ matchKeyValue line' = some kv := by
      obtain ⟨hle, line', hline', hmatch⟩ := ih h
      refine ⟨by omega, line', ?_, hmatch⟩
      rw [show j - i = (j - (i + 1)) + 1 by omega, List.getElem?_cons_succ]
      exact hline'
    cases hmatch : matchKeyValue line with
    | none =>
      rw [hmatch] at h
      exact hrest h
    | some kv' =>
      rw [hmatch] at h
      obtain heq | h := List.mem_cons.mp h
      . cases heq
        exact ⟨Nat.le_refl _, line, by simp, hmatch⟩
      . exact hrest h

/-- A value that is found in a section is that of one of its lines. -/
theorem bodyValues_lookup {k v : List Char} {j : Nat} (h : (bodyValues cf body).lookup k = some (v, j))
    : 0 < j ∧ ∃ line kv, body[j]? = some line ∧ matchKeyValue line = some kv ∧ cf.casefold kv.key = k
      ∧ v = strip kv.value := by
  have hmem := mem_of_lookup h
  obtain ⟨⟨kv, i⟩, hkv, heq⟩ := List.mem_map.mp hmem
  cases heq
  obtain ⟨hle, line, hline, hmatch⟩ := mem_keyValues hkv
  refine ⟨hle, line, kv, ?_, hmatch, rfl, rfl⟩
  cases body with
  | nil => simp at hline
  | cons x rest =>
    rw [show j = (j - 1) + 1 by omega, List.getElem?_cons_succ]
    exact hline

/-- A line has the value of one key only. -/
theorem bodyValues_unique {k k' v v' : List Char} {j : Nat} (h : (bodyValues cf body).lookup k = some (v, j))
    (h' : (bodyValues cf body).lookup k' = some (v', j)) : k = k' := by
  obtain ⟨_, line, kv, hline, hmatch, rfl, _⟩ := bodyValues_lookup h
  obtain ⟨_, line', kv', hline', hmatch', rfl, _⟩ := bodyValues_lookup h'
  obtain rfl : line = line' := Option.some_inj.mp (hline.symm.trans hline')
  obtain rfl : kv = kv' := Option.some_inj.mp (hmatch.symm.trans hmatch')
  rfl

end

/-! ### A value that is written -/

/-- Line `j` of a section has a key and a value, and another value is written. -/
structure Rewrite (body : List (List Char)) (j : Nat) (kv : KeyValue) (value : List Char) : Prop where
  pos : 0 < j
  line : ∃ line, body[j]? = some line ∧ matchKeyValue line = some kv
  value : Written value

/-- The section with the value. -/
def rewrite (body : List (List Char)) (j : Nat) (kv : KeyValue) (value : List Char) : List (List Char) :=
  body.set j (kv.head ++ (value ++ kv.stop))

section

variable {body : List (List Char)} {j : Nat} {kv : KeyValue} {value : List Char} {cf : CaseFold}

theorem Written.strip_value (h : Written value) : strip value = value :=
  strip_eq h.begins fun c hc => (h.last c hc).1

theorem Rewrite.match (h : Rewrite body j kv value)
    : matchKeyValue (kv.head ++ (value ++ kv.stop)) = some { kv with value := value } := by
  obtain ⟨line, _, hmatch⟩ := h.line
  exact matchKeyValue_eq_some.mpr ((matchKeyValue_eq_some.mp hmatch).replace h.value)

theorem Rewrite.unmarked (h : Rewrite body j kv value) : sectionMark (kv.head ++ (value ++ kv.stop)) = none := by
  obtain ⟨line, _, hmatch⟩ := h.line
  exact sectionMark_written h.value (matchKeyValue_eq_some.mp hmatch).stop_cases

theorem Rewrite.key (h : Rewrite body j kv value)
    : Text.key sectionMark (rewrite body j kv value) = Text.key sectionMark body := by
  obtain ⟨i, rfl⟩ : ∃ i, j = i + 1 := ⟨j - 1, by have := h.pos; omega⟩
  cases body <;> rfl

theorem Rewrite.chunk (h : Rewrite body j kv value) (hchunk : Chunk sectionMark body)
    : Chunk sectionMark (rewrite body j kv value) := by
  obtain ⟨i, rfl⟩ : ∃ i, j = i + 1 := ⟨j - 1, by have := h.pos; omega⟩
  cases hchunk with
  | mk hx hbody =>
    refine .mk hx fun y hy => ?_
    obtain hy | rfl := List.mem_or_eq_of_mem_set hy
    . exact hbody y hy
    . exact h.unmarked

theorem length_rewrite : (rewrite body j kv value).length = body.length := List.length_set

theorem keyValues_set {l : List (List Char)} {m i : Nat} {line line' : List Char} {kv kv' : KeyValue}
    (hline : l[m]? = some line) (hmatch : matchKeyValue line = some kv) (hmatch' : matchKeyValue line' = some kv')
    : keyValues (l.set m line') i
      = (keyValues l i).map fun item => if item.2 = i + m then (kv', item.2) else item := by
  induction l generalizing m i with
  | nil => simp at hline
  | cons x l ih =>
    have hlater {l : List (List Char)} {n : Nat} (hn : n ≤ i)
        : (keyValues l (i + 1)).map (fun item => if item.2 = n then (kv', item.2) else item) = keyValues l (i + 1) := by
      refine (List.map_congr_left fun item hitem => ?_).trans (List.map_id _)
      obtain ⟨hle, _⟩ := mem_keyValues hitem
      rw [if_neg (by omega)]
      rfl
    cases m with
    | zero =>
      obtain rfl : x = line := Option.some_inj.mp hline
      rw [List.set_cons_zero, keyValues, keyValues, hmatch, hmatch']
      simp only [List.map_cons, Nat.add_zero, if_true]
      rw [hlater (Nat.le_refl i)]
    | succ m =>
      rw [List.getElem?_cons_succ] at hline
      rw [List.set_cons_succ, keyValues, keyValues, ih hline, Nat.add_assoc, Nat.add_comm 1 m]
      cases matchKeyValue x with
      | none => rfl
      | some kv₀ =>
        simp only [List.map_cons, List.cons.injEq, and_true]
        rw [if_neg (by omega)]

theorem Rewrite.bodyKeyValues (h : Rewrite body j kv value)
    : bodyKeyValues (rewrite body j kv value)
      = (bodyKeyValues body).map fun item => if item.2 = j then ({ kv with value := value }, item.2) else item := by
  obtain ⟨i, rfl⟩ : ∃ i, j = i + 1 := ⟨j - 1, by have := h.pos; omega⟩
  obtain ⟨line, hline, hmatch⟩ := h.line
  cases body with
  | nil => simp at hline
  | cons x rest =>
    rw [List.getElem?_cons_succ] at hline
    have hset := keyValues_set (i := 1) hline hmatch h.match
    rw [Nat.add_comm 1 i] at hset
    exact hset

/-- The line that is rewritten is the one that is read. -/
theorem Rewrite.item (h : Rewrite body j kv value) {item : KeyValue × Nat}
    (hitem : item ∈ Dcf.bodyKeyValues body) (hj : item.2 = j) : item.1 = kv := by
  obtain ⟨hle, line, hline, hmatch⟩ := mem_keyValues hitem
  obtain ⟨line', hline', hmatch'⟩ := h.line
  cases body with
  | nil => simp at hline'
  | cons x rest =>
    rw [← hj, show item.2 = (item.2 - 1) + 1 by omega, List.getElem?_cons_succ] at hline'
    obtain rfl : line = line' := Option.some_inj.mp (hline.symm.trans hline')
    exact Option.some_inj.mp (hmatch.symm.trans hmatch')

theorem Rewrite.bodyValues (h : Rewrite body j kv value) (k : List Char)
    : (bodyValues cf (rewrite body j kv value)).lookup k
      = ((bodyValues cf body).lookup k).map fun (v, i) => if i = j then (value, i) else (v, i) := by
  rw [Dcf.bodyValues, Dcf.bodyValues, h.bodyKeyValues,
    ← lookup_dictOf_map (fun p : List Char × Nat => if p.2 = j then (value, p.2) else (p.1, p.2)), List.map_map,
    List.map_map]
  congr 2
  refine List.map_congr_left fun item hitem => ?_
  simp only [Function.comp_apply]
  by_cases hj : item.2 = j
  . rw [if_pos hj, if_pos hj, h.item hitem hj]
    simp only [h.value.strip_value]
  . rw [if_neg hj, if_neg hj]

theorem Rewrite.numericKeys (h : Rewrite body j kv value)
    : bodyNumericKeys cf (rewrite body j kv value) = bodyNumericKeys cf body := by
  rw [bodyNumericKeys, bodyNumericKeys, h.bodyKeyValues, List.filterMap_map]
  refine List.filterMap_congr fun item hitem => ?_
  simp only [Function.comp_apply]
  by_cases hj : item.2 = j
  . rw [if_pos hj]
    simp only [numericKey, h.item hitem hj]
  . rw [if_neg hj]

end

end LelyRtt.Dcf
