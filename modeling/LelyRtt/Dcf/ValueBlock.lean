import LelyRtt.Dcf.Upsert

/-!
This module contains the section with the values of an object as it is written: what is read from it, and
that what else is read from the text is the same.
-/

namespace LelyRtt.Dcf

open Text

/-- The positive numbers that are keys of a section, with their values. -/
def numericItems (cf : CaseFold) (items : List (KeyValue × Nat)) : List (Nat × List Char) :=
  items.filterMap fun item => (numericKey cf item.1).map fun n => (n, strip item.1.value)

/-- The value of a number in a section. -/
def numericAt (cf : CaseFold) (items : List (KeyValue × Nat)) (key : Nat) : Option (List Char) :=
  (dictOf (numericItems cf items)).lookup key

/-- The number of values is that of the keys of a section. -/
def Counted (cf : CaseFold) (items : List (KeyValue × Nat)) : Prop :=
  (valueAt cf items "nrofentries".toList).bind parseInt = some ((numericItems cf items).map (·.1)).length
    ∧ ((numericItems cf items).map (·.1)).Nodup

/-- The section with values that is written behind `lead` of a line. -/
def valueBlock (lead newline name : List Char) (entries : List (Nat × List Char)) : List (List Char) :=
  (lead ++ '[' :: (name ++ ']' :: newline)) :: ("NrOfEntries=".toList ++ (decimal entries.length ++ newline))
    :: (entries.map (fun entry => decimal entry.1 ++ '=' :: (entry.2 ++ newline)) ++ [newline])

/-- A text within a line without blanks around it. -/
structure Trimmed (value : List Char) : Prop where
  plain : Plain value
  begins : Begins value
  ends : Ends value

section

variable {cf : CaseFold} {lead newline name value line : List Char} {key n i : Nat} {entries : List (Nat × List Char)}
  {items : List (KeyValue × Nat)}

theorem Written.trimmed (h : Written value) : Trimmed value := ⟨h.plain, h.begins, fun c hc => (h.last c hc).1⟩

theorem trimmed_strip {s : List Char} (h : Plain s) : Trimmed (strip s) := by
  refine ⟨h.sublist ((rstrip_sublist _).trans (List.dropWhile_suffix _).sublist), ?_, ends_rstrip _⟩
  obtain ⟨w, _, hsplit⟩ := rstrip_split (lstrip s)
  intro c hc
  have hbegins := begins_lstrip s
  rw [hsplit] at hbegins
  have hc : c ∈ (rstrip (lstrip s)).head? := hc
  refine hbegins c ?_
  rw [List.head?_append, Option.mem_def.mp hc]
  rfl

/-- The line of the value of a number. -/
theorem matchKeyValue_entry (hnewline : newline = ['\n'] ∨ newline = ['\r', '\n']) (hvalue : Trimmed value) (key : Nat)
    : ∃ kv, matchKeyValue (decimal key ++ '=' :: (value ++ newline)) = some kv ∧ kv.key = decimal key
      ∧ strip kv.value = value := by
  have hkey := written_decimal key
  have heq : '=' ∉ decimal key := fun hmem => absurd ((decimal_spec key).2.2 _ hmem) (by decide)
  obtain rfl | hne := eq_or_ne value []
  . -- the line end belongs to the blanks behind the equals sign
    refine ⟨⟨decimal key ++ '=' :: newline, decimal key, [], []⟩, matchKeyValue_eq_some.mpr ⟨by simp, ?_, by simp [Begins], rfl⟩,
      rfl, rfl⟩
    refine ⟨decimal key, newline, hkey.ne_nil, heq, ?_, rfl, hkey.strip_value.symm⟩
    obtain rfl | rfl := hnewline <;> simp [Blank, isSpace]
  . refine ⟨⟨decimal key ++ ['='], decimal key, value, newline⟩, matchKeyValue_eq_some.mpr ⟨by simp, ?_, ?_, ?_⟩, rfl,
      strip_eq hvalue.begins hvalue.ends⟩
    . exact ⟨decimal key, [], hkey.ne_nil, heq, blank_nil, rfl, hkey.strip_value.symm⟩
    . exact hvalue.begins.append hne _
    . exact splitEnd_plain hvalue.plain (.inr hnewline)

/-- A line that begins with a number is no section line. -/
theorem sectionMark_digit (rest : List Char) (key : Nat) : sectionMark (decimal key ++ '=' :: rest) = none := by
  obtain ⟨c, digits, hdigits⟩ := List.exists_cons_of_ne_nil (decimal_spec key).2.1
  have hc : c.isDigit = true := (decimal_spec key).2.2 c (by rw [hdigits]; simp)
  have hspace : isSpace c = false := ((written_decimal key).solid c (by rw [hdigits]; simp)).1
  refine Option.eq_none_iff_forall_ne_some.mpr fun name hname => ?_
  rw [sectionMark, sectionName] at hname
  obtain ⟨s, hs, _⟩ := Option.bind_eq_some_iff.mp hname
  obtain ⟨w, hw, heq⟩ := (skipLit_eq_some (begins_of_head (by rfl) : Begins ['[']) (by decide)).mp hs
  obtain ⟨back, hback⟩ : rstripEnd (decimal key ++ '=' :: rest) <+: decimal key ++ '=' :: rest :=
    List.rdropWhile_prefix _ _
  rw [heq, hdigits] at hback
  have hhead := congrArg List.head? hback
  cases w with
  | nil =>
    cases hhead
    exact absurd hc (by decide)
  | cons d w =>
    cases hhead
    rw [hw c List.mem_cons_self] at hspace
    cases hspace

theorem sectionMark_newline (hnewline : newline = ['\n'] ∨ newline = ['\r', '\n']) : sectionMark newline = none := by
  obtain rfl | rfl := hnewline <;> decide

/-- The section line of the values of an object. -/
theorem sectionMark_header (hnewline : newline = ['\n'] ∨ newline = ['\r', '\n']) (hlead : Blank lead) (hname : Written name)
    : sectionMark (lead ++ '[' :: (name ++ ']' :: newline)) = some name := by
  have hassoc : lead ++ '[' :: (name ++ ']' :: newline) = (lead ++ (['['] ++ (name ++ [']']))) ++ newline := by simp
  have hend : newline.rdropWhile (fun c => c = '\r' ∨ c = '\n') = [] := by
    obtain rfl | rfl := hnewline <;> decide
  have hstrip : rstripEnd ((lead ++ (['['] ++ (name ++ [']']))) ++ newline) = lead ++ (['['] ++ (name ++ [']'])) := by
    rw [rstripEnd, rdropWhile_append (by simp) ?_, hend, List.append_nil]
    intro c hc
    rw [← List.append_assoc, ← List.append_assoc, List.getLast?_concat] at hc
    cases hc
    decide
  have hskip : skipLit ['['] (lead ++ (['['] ++ (name ++ [']']))) = some (name ++ [']']) :=
    (skipLit_eq_some (begins_of_head (by rfl) : Begins ['[']) (by decide)).mpr ⟨lead, hlead, rfl⟩
  have hall : ∀ c ∈ name, (decide (c ≠ ']')) = true := fun c hc => by simpa using (hname.solid c hc).2
  rw [hassoc, sectionMark, hstrip, sectionName, hskip]
  simp only [Option.bind_eq_bind, Option.bind_some]
  rw [List.takeWhile_append_of_pos hall, List.dropWhile_append_of_pos hall]
  have htake : [']'].takeWhile (fun c => decide (c ≠ ']')) = [] := by decide
  have hdrop : [']'].dropWhile (fun c => decide (c ≠ ']')) = [']'] := by decide
  have hlit : dropLit [']'] [']'] = some [] := by decide
  rw [htake, hdrop, hlit, Option.bind_some, List.append_nil, if_neg (by simp [hname.ne_nil]), hname.strip_value]

/-! ### The section as it is written -/

variable (entries) in
theorem valueBlock_chunk (hnewline : newline = ['\n'] ∨ newline = ['\r', '\n']) (hlead : Blank lead) (hname : Written name)
    : Chunk sectionMark (valueBlock lead newline name entries) ∧ nameOf (valueBlock lead newline name entries) = name := by
  have hmark := sectionMark_header hnewline hlead hname
  refine ⟨.mk (by rw [hmark]; rfl) fun line hline => ?_, ?_⟩
  . simp only [List.mem_cons, List.mem_append, List.mem_map, List.not_mem_nil, or_false] at hline
    obtain rfl | ⟨entry, _, rfl⟩ | rfl := hline
    . exact sectionMark_written (written_decimal _) (.inr hnewline)
    . exact sectionMark_digit _ _
    . exact sectionMark_newline hnewline
  . rw [valueBlock, nameOf, Text.key, List.head?_cons, Option.bind_some, hmark, Option.getD_some]

theorem valueBlock_closed (hnewline : newline = ['\n'] ∨ newline = ['\r', '\n']) (hlead : Plain lead) (hname : Written name)
    (hentries : ∀ entry ∈ entries, Trimmed entry.2) : Closed (valueBlock lead newline name entries) := by
  intro line hline
  simp only [valueBlock, List.mem_cons, List.mem_append, List.mem_map, List.not_mem_nil, or_false] at hline
  obtain rfl | rfl | ⟨entry, hentry, rfl⟩ | rfl := hline
  . refine ⟨lead ++ '[' :: (name ++ [']']), newline, by simp, hlead.append ?_, hnewline⟩
    exact plain_cons.mpr ⟨by decide, hname.plain.append (by decide)⟩
  . exact ⟨"NrOfEntries=".toList ++ decimal entries.length, newline, by simp,
      Plain.append (by decide) (plain_decimal _), hnewline⟩
  . exact ⟨decimal entry.1 ++ '=' :: entry.2, newline, by simp,
      (plain_decimal _).append (plain_cons.mpr ⟨by decide, (hentries entry hentry).plain⟩), hnewline⟩
  . exact ⟨[], line, rfl, plain_nil, hnewline⟩

theorem casefold_decimal (cf : CaseFold) (n : Nat) : cf.casefold (decimal n) ≠ "nrofentries".toList := by
  have hdigit : ∀ d : Fin 10, d.1.digitChar.toNat < 128 ∧ d.1.digitChar.toLower ≠ 'n' := by decide
  have hall : ∀ c ∈ decimal n, c.toNat < 128 ∧ c.toLower ≠ 'n' := by
    have hhex : ∀ d : Fin 10, hexDigit (id d.1.digitChar) = some d.1 := by decide
    have hchars := (toDigits_spec (f := id) (by decide) (fun d hd => hhex ⟨d, hd⟩) n).2.2
    rw [List.map_id] at hchars
    intro c hc
    obtain ⟨d, hd, rfl⟩ := hchars c hc
    exact hdigit ⟨d, hd⟩
  rw [casefold_ascii fun c hc => (hall c hc).1]
  intro heq
  have hn : 'n' ∈ (decimal n).map Char.toLower := by
    rw [heq]
    decide
  obtain ⟨c, hc, hlower⟩ := List.mem_map.mp hn
  exact (hall c hc).2 hlower

theorem numericKey_decimal {kv : KeyValue} (hkey : kv.key = decimal n) (hn : 0 < n) : numericKey cf kv = some n := by
  rw [numericKey, hkey, if_neg (casefold_decimal cf n), parseInt_decimal]
  exact if_pos hn

variable (cf) in
/-- The lines of the values are read back. -/
theorem keyValues_entries (hnewline : newline = ['\n'] ∨ newline = ['\r', '\n'])
    (hentries : ∀ entry ∈ entries, Trimmed entry.2) (hpos : ∀ entry ∈ entries, 0 < entry.1) (i : Nat)
    : numericItems cf (keyValues (entries.map (fun entry => decimal entry.1 ++ '=' :: (entry.2 ++ newline)) ++ [newline]) i)
        = entries
      ∧ ∀ item ∈ keyValues (entries.map (fun entry => decimal entry.1 ++ '=' :: (entry.2 ++ newline)) ++ [newline]) i,
        ∃ n, item.1.key = decimal n := by
  induction entries generalizing i with
  | nil =>
    have hblank : ∀ line ∈ [newline], strip line = [] := by
      intro line hline
      rw [List.mem_singleton.mp hline]
      obtain rfl | rfl := hnewline <;> decide
    rw [List.map_nil, List.nil_append, keyValues_blank hblank]
    exact ⟨rfl, fun _ hitem => (nomatch hitem)⟩
  | cons entry entries ih =>
    obtain ⟨kv, hmatch, hkey, hvalue⟩ := matchKeyValue_entry hnewline (hentries entry List.mem_cons_self) entry.1
    obtain ⟨hitems, hkeys⟩ := ih (fun e he => hentries e (List.mem_cons_of_mem _ he))
      (fun e he => hpos e (List.mem_cons_of_mem _ he)) (i + 1)
    rw [List.map_cons, List.cons_append, keyValues, hmatch]
    refine ⟨?_, fun item hitem => ?_⟩
    . simp only [numericItems, List.filterMap_cons, numericKey_decimal hkey (hpos entry List.mem_cons_self),
        Option.map_some, hvalue]
      exact congrArg _ hitems
    . obtain rfl | hitem := List.mem_cons.mp hitem
      . exact ⟨entry.1, hkey⟩
      . exact hkeys item hitem

variable (cf lead name) in
/-- What is read from the section. -/
theorem valueBlock_items (hnewline : newline = ['\n'] ∨ newline = ['\r', '\n'])
    (hentries : ∀ entry ∈ entries, Trimmed entry.2) (hpos : ∀ entry ∈ entries, 0 < entry.1)
    : numericItems cf (bodyKeyValues (valueBlock lead newline name entries)) = entries
      ∧ valueAt cf (bodyKeyValues (valueBlock lead newline name entries)) "nrofentries".toList
        = some (decimal entries.length) := by
  obtain ⟨hitems, hkeys⟩ := keyValues_entries cf hnewline hentries hpos 2
  have hkey : Written "NrOfEntries".toList := by
    refine ⟨by decide, ?_⟩
    decide
  have hname : cf.casefold "NrOfEntries".toList = "nrofentries".toList := by
    rw [casefold_ascii (by decide)]
    decide
  have hassoc : "NrOfEntries".toList ++ '=' :: (decimal entries.length ++ newline)
      = "NrOfEntries=".toList ++ (decimal entries.length ++ newline) := rfl
  obtain ⟨kv, hmatch, hfold, hvalue⟩ : ∃ kv, matchKeyValue ("NrOfEntries=".toList ++ (decimal entries.length ++ newline)) = some kv
      ∧ cf.casefold kv.key = "nrofentries".toList ∧ strip kv.value = decimal entries.length := by
    refine ⟨_, hassoc ▸ matchKeyValue_eq_some.mpr (isKeyValue_line hkey (by decide) (written_decimal entries.length) hnewline),
      hname, (written_decimal _).strip_value⟩
  rw [bodyKeyValues, valueBlock, List.tail_cons, keyValues, hmatch]
  refine ⟨?_, ?_⟩
  . rw [numericItems, List.filterMap_cons, numericKey, if_pos hfold]
    exact hitems
  . have hnone : lastItem cf (keyValues (entries.map (fun entry => decimal entry.1 ++ '=' :: (entry.2 ++ newline))
        ++ [newline]) 2) "nrofentries".toList = none := by
      refine lastItem_none fun item hitem => ?_
      obtain ⟨n, hn⟩ := hkeys item hitem
      rw [hn]
      exact casefold_decimal cf n
    rw [valueAt, lastItem_cons, hnone, if_pos hfold.symm, Option.none_or, Option.map_some, hvalue]

/-! ### The values in the order of their numbers -/

/-- The values of a dictionary in the order of their keys. -/
def entriesOf (existing : List (Nat × List Char)) : List (Nat × List Char) :=
  (existing.map (·.1)).mergeSort.map fun key => (key, (existing.lookup key).getD [])

theorem lookup_map_key {f : Nat → List Char} (ks : List Nat) (key : Nat)
    : (ks.map fun k => (k, f k)).lookup key = if key ∈ ks then some (f key) else none := by
  induction ks with
  | nil => rfl
  | cons k ks ih =>
    rw [List.map_cons, lookup_cons_eq, ih]
    by_cases h : key = k
    . subst h
      simp
    . simp [h]

theorem lookup_isSome {existing : List (Nat × List Char)} : (existing.lookup key).isSome ↔ key ∈ existing.map (·.1) := by
  induction existing with
  | nil => simp
  | cons entry existing ih =>
    obtain ⟨k, v⟩ := entry
    rw [lookup_cons_eq, List.map_cons, List.mem_cons, ← ih]
    by_cases h : key = k <;> simp [h]

theorem entriesOf_spec {existing : List (Nat × List Char)} (hnodup : (existing.map (·.1)).Nodup)
    : (∀ key, (dictOf (entriesOf existing)).lookup key = existing.lookup key)
      ∧ (entriesOf existing).length = existing.length ∧ ((entriesOf existing).map (·.1)).Nodup
      ∧ ∀ entry ∈ entriesOf existing, existing.lookup entry.1 = some entry.2 := by
  have hperm : (existing.map (·.1)).mergeSort.Perm (existing.map (·.1)) := List.mergeSort_perm _ _
  have hkeys : (entriesOf existing).map (·.1) = (existing.map (·.1)).mergeSort := by
    rw [entriesOf, List.map_map]
    exact List.map_id _
  have hget {key : Nat} (hkey : key ∈ existing.map (·.1)) : existing.lookup key = some ((existing.lookup key).getD []) := by
    obtain ⟨v, hv⟩ := Option.isSome_iff_exists.mp (lookup_isSome.mpr hkey)
    rw [hv]
    rfl
  refine ⟨fun key => ?_, ?_, ?_, fun entry hentry => ?_⟩
  . rw [lookup_dictOf, entriesOf, ← List.map_reverse, lookup_map_key]
    simp only [List.mem_reverse, hperm.mem_iff]
    split
    next hkey => rw [← hget hkey]
    next hkey =>
      cases hlookup : existing.lookup key with
      | none => rfl
      | some v => exact absurd (lookup_isSome.mp (by rw [hlookup]; rfl)) hkey
  . rw [entriesOf, List.length_map, List.length_mergeSort, List.length_map]
  . rw [hkeys]
    exact hperm.nodup_iff.mpr hnodup
  . obtain ⟨key, hkey, rfl⟩ := List.mem_map.mp hentry
    exact hget (hperm.mem_iff.mp hkey)

/-- The keys of a section are positive, and its values are trimmed. -/
theorem numericItems_mem {lines body : List (List Char)} (hended : EndedLines lines) (hbody : ∀ l ∈ body, l ∈ lines)
    {entry : Nat × List Char} (hentry : entry ∈ numericItems cf (bodyKeyValues body)) : 0 < entry.1 ∧ Trimmed entry.2 := by
  obtain ⟨⟨kv, i⟩, hitem, hkey⟩ := List.mem_filterMap.mp hentry
  obtain ⟨n, hn, rfl⟩ := Option.map_eq_some_iff.mp hkey
  refine ⟨?_, ?_⟩
  . unfold numericKey at hn
    split at hn
    next => cases hn
    next =>
      split at hn
      next =>
        split at hn
        next hpos =>
          cases hn
          exact hpos
        next => cases hn
      next => cases hn
  . obtain ⟨_, line, hline, hmatch⟩ := mem_keyValues hitem
    refine trimmed_strip (plain_value (matchKeyValue_eq_some.mp hmatch) hended (hbody line ?_))
    exact List.mem_of_mem_tail (List.mem_of_getElem? hline)

variable (cf lead name) in
/-- What is read from the section of the values of a dictionary. -/
theorem valueBlock_read (existing : List (Nat × List Char)) (hnewline : newline = ['\n'] ∨ newline = ['\r', '\n'])
    (hnodup : (existing.map (·.1)).Nodup) (hentries : ∀ key v, existing.lookup key = some v → 0 < key ∧ Trimmed v)
    : Counted cf (bodyKeyValues (valueBlock lead newline name (entriesOf existing)))
      ∧ ∀ key, numericAt cf (bodyKeyValues (valueBlock lead newline name (entriesOf existing))) key = existing.lookup key := by
  obtain ⟨hlookup, hlength, hkeys, hmem⟩ := entriesOf_spec hnodup
  obtain ⟨hitems, hcount⟩ := valueBlock_items cf lead name hnewline
    (fun entry hentry => (hentries _ _ (hmem entry hentry)).2) (fun entry hentry => (hentries _ _ (hmem entry hentry)).1)
  refine ⟨⟨?_, ?_⟩, fun key => ?_⟩
  . rw [hcount, hitems, Option.bind_some, parseInt_decimal, List.length_map]
  . rwa [hitems]
  . rw [numericAt, hitems, hlookup]

end

/-! ### A value of an object is written -/

/-- The name of the section with the values of an object. -/
def valuesName (cf : CaseFold) (index : Nat) : List Char := cf.casefold (upperHex 4 index ++ "Value".toList)

section

variable {cf : CaseFold} {lines before body : List (List Char)} {bodies front back : List (List (List Char))}
  {text out value : List Char} {index subidx : Nat}

theorem written_values (index : Nat) : Written (upperHex 4 index ++ "Value".toList) := by
  refine ⟨by simp, fun c hc => ?_⟩
  obtain hc | hc := List.mem_append.mp hc
  . exact ((upperHex_spec 4 index).2.2 c hc).2
  . have hall : ∀ c ∈ "Value".toList, isSpace c = false ∧ c ≠ ']' := by decide
    exact hall c hc

theorem blank_of_strip {s : List Char} (h : strip s = []) : Blank s := by
  intro c hc
  by_contra hspace
  exact strip_ne_nil hc (by simpa using hspace) h

/-- A blank line without an end goes with the line that is put behind it. -/
theorem exists_lead (hchunk : Chunk sectionMark body) (h : Closed (before ++ body) ∨ ∃ init line, before ++ body
    = init ++ [line] ∧ Closed init ∧ Plain line ∧ strip line = [])
    : ∃ body' lead, Blank lead ∧ Plain lead ∧ Chunk sectionMark body' ∧ reading body' = reading body
      ∧ Closed (before ++ body') ∧ body.flatten = body'.flatten ++ lead := by
  obtain hclosed | ⟨init, line, heq, hinit, hplain, hblank⟩ := h
  . exact ⟨body, [], blank_nil, plain_nil, hchunk, rfl, hclosed, by simp⟩
  . obtain rfl | ⟨body', line', rfl⟩ := List.eq_nil_or_concat' body
    . exact absurd rfl hchunk.ne_nil
    . rw [← List.append_assoc] at heq
      obtain ⟨rfl, hline⟩ := List.append_inj' heq rfl
      cases hline
      cases body' with
      | nil =>
        cases hchunk with
        | mk hx _ =>
          obtain ⟨name, hname⟩ := Option.isSome_iff_exists.mp hx
          exact absurd hblank (sectionMark_not_blank hname)
      | cons x rest =>
        refine ⟨x :: rest, line, blank_of_strip hblank, hplain, ?_, ?_, hinit, by simp⟩
        . cases hchunk with
          | mk hx hrest => exact .mk hx fun l hl => hrest l (List.mem_append_left _ hl)
        . have hitems : bodyKeyValues (x :: rest ++ [line]) = bodyKeyValues (x :: rest) := by
            rw [bodyKeyValues, bodyKeyValues, List.cons_append, List.tail_cons, List.tail_cons, keyValues_append,
              keyValues_blank (l := [line]) (by simpa using hblank), List.append_nil]
          rw [reading, reading, hitems]
          rfl

/-- A value that is written for an object is read from the section of its values, and what else is read from the text
is the same. -/
theorem upsertCompactValue_put (hended : EndedLines (splitLines text))
    (hchunked : Chunked sectionMark (splitLines text) before bodies) (hsubidx : 0 < subidx) (hvalue : Written value)
    (hloose : named cf bodies (valuesName cf index) = none → Loose (splitLines text) →
      lastName cf bodies ≠ some (cf.casefold (upperHex 4 index)))
    (h : upsertCompactValue cf text index subidx value = .ok out)
    : ∃ bodies' items', Put cf (valuesName cf index) items' before bodies bodies'
      ∧ splitLines out = before ++ bodies'.flatten ∧ Counted cf items'
      ∧ ∀ key, numericAt cf items' key = if key = subidx then some value
        else (named cf bodies (valuesName cf index)).bind fun items => numericAt cf items key := by
  have hnewline := newlineFor_cases text
  have hwritten := written_values index
  unfold upsertCompactValue at h
  dsimp only at h
  rw [← valuesName] at h
  obtain ⟨hnone, hnames⟩ | ⟨front, body, back, rfl, hname, hback, hfound⟩ :=
    byName_eq cf hchunked (valuesName cf index)
  . rw [hnone] at h
    obtain ⟨hparent, _⟩ | ⟨front, body, back, rfl, hname, _, hparent⟩ :=
      byName_eq cf hchunked (cf.casefold (upperHex 4 index))
    . simp only [hparent] at h
      cases h
    . simp only [hparent] at h
      have hchunk : Chunk sectionMark body := hchunked.chunk body (by simp)
      have hlines : splitLines text = (before ++ front.flatten ++ body) ++ back.flatten := by
        rw [hchunked.list]
        simp
      have hold := hended
      rw [hlines] at hold
      have hclosed : Closed (before ++ front.flatten ++ body) ∨ ∃ init line, before ++ front.flatten ++ body
          = init ++ [line] ∧ Closed init ∧ Plain line ∧ strip line = [] := by
        by_cases hrest : back.flatten = []
        . -- the section is put at the end of the text
          have hback : back = [] := flatten_eq_nil (fun b hb => hchunked.chunk b (by simp [hb])) hrest
          rw [hrest, List.append_nil] at hold
          refine closed_or_blank hold fun hl => hloose (named_none hnames) ?_ ?_
          . rwa [hlines, hrest, List.append_nil]
          . rw [lastName, hback, List.getLast?_concat, Option.map_some, hname]
        . exact .inl (closed_of_ended hold hrest)
      obtain ⟨body', lead, hlead, hplain, hchunk', hreading, hclosed', hflatten⟩ := exists_lead hchunk hclosed
      have hentries : entriesOf [(subidx, value)] = [(subidx, value)] := by simp [entriesOf, lookup_cons_eq]
      obtain ⟨hcounted, hread⟩ := valueBlock_read cf lead (upperHex 4 index ++ "Value".toList)
        [(subidx, value)] hnewline (by simp) fun key v hv => by
          rw [lookup_cons_eq] at hv
          split at hv
          next hkey =>
            cases hv
            exact ⟨hkey ▸ hsubidx, hvalue.trimmed⟩
          next => cases hv
      obtain ⟨hnew, hnewName⟩ := valueBlock_chunk (entriesOf [(subidx, value)]) hnewline hlead hwritten
      have hnewClosed : Closed (valueBlock lead (newlineFor text) (upperHex 4 index ++ "Value".toList)
          (entriesOf [(subidx, value)])) := by
        refine valueBlock_closed hnewline hplain hwritten fun entry hentry => ?_
        rw [hentries, List.mem_singleton] at hentry
        rw [hentry]
        exact hvalue.trimmed
      generalize hblock : valueBlock lead (newlineFor text) (upperHex 4 index ++ "Value".toList)
        (entriesOf [(subidx, value)]) = new at hcounted hread hnew hnewName hnewClosed
      have hflatten' : before ++ (front ++ body' :: new :: back).flatten
          = (before ++ front.flatten ++ body') ++ (new ++ back.flatten) := by simp
      have hended' : EndedLines (before ++ (front ++ body' :: new :: back).flatten) := by
        rw [hflatten']
        exact hclosed'.ended (hnewClosed.ended (hold.sublist (List.sublist_append_right _ _)))
      refine ⟨front ++ body' :: new :: back, _, put_insert hchunked hnames hreading hchunk' hnew
        (by rw [hnewName, valuesName]) hended' hnewClosed.not_loose, ?_, hcounted, fun key => ?_⟩
      . rw [← splitLines_flatten (lines_of_ended hended'), hflatten', ← Except.ok.inj h, hlines,
          ← List.length_append, List.take_left, List.drop_left, ← hblock, hentries]
        simp [valueBlock, hflatten]
        rfl
      . rw [hread, lookup_cons_eq, named_none hnames]
        rfl
  . rw [hfound] at h
    have hchunk : Chunk sectionMark body := hchunked.chunk body (by simp)
    have hlines : splitLines text = (before ++ front.flatten) ++ (body ++ back.flatten) := by
      rw [hchunked.list]
      simp
    have hmem : ∀ l ∈ body, l ∈ splitLines text := fun l hl => by
      rw [hlines]
      simp [hl]
    have hnamed : named cf (front ++ body :: back) (valuesName cf index) = some (bodyKeyValues body) := by
      rw [named_append, named_cons, named_none hback, if_pos hname.symm]
      rfl
    have hitems : (sectionKeyValues (splitLines text) ⟨nameOf body, (before ++ front.flatten).length,
        (before ++ front.flatten).length + body.length⟩).filterMap
          (fun item => (numericKey cf item.1).map fun n => (n, strip item.1.value)) = numericItems cf (bodyKeyValues body) := by
      rw [hlines, sectionKeyValues_body _ hchunk.ne_nil, List.filterMap_map]
      rfl
    obtain ⟨existing, hexisting⟩ : ∃ existing, existing
        = dictSet (dictOf (numericItems cf (bodyKeyValues body))) subidx value := ⟨_, rfl⟩
    have hout : out = ((splitLines text).take (before ++ front.flatten).length ++ (valueBlock [] (newlineFor text)
        (upperHex 4 index ++ "Value".toList) (entriesOf existing)
        ++ (splitLines text).drop ((before ++ front.flatten).length + body.length))).flatten := by
      have hlength : (entriesOf existing).length = existing.length := by
        rw [entriesOf, List.length_map, List.length_mergeSort, List.length_map]
      rw [← Except.ok.inj h, valueBlock, hlength, entriesOf, hexisting, ← hitems, List.map_map]
      rfl
    have hlookup (key : Nat) : existing.lookup key = if key = subidx then some value
        else numericAt cf (bodyKeyValues body) key := by
      rw [hexisting, lookup_dictSet]
      rfl
    have hok : ∀ key v, existing.lookup key = some v → 0 < key ∧ Trimmed v := by
      intro key v hv
      rw [hlookup] at hv
      split at hv
      next hkey =>
        cases hv
        exact ⟨hkey ▸ hsubidx, hvalue.trimmed⟩
      next => exact numericItems_mem hended hmem (mem_of_lookup hv)
    have hnodup : (existing.map (·.1)).Nodup := by
      rw [hexisting]
      exact nodup_dictSet (nodup_dictOf _)
    obtain ⟨hcounted, hread⟩ := valueBlock_read cf [] (upperHex 4 index ++ "Value".toList)
      existing hnewline hnodup hok
    obtain ⟨hnew, hnewName⟩ := valueBlock_chunk (entriesOf existing) hnewline
      blank_nil hwritten
    have hnewClosed : Closed (valueBlock [] (newlineFor text) (upperHex 4 index ++ "Value".toList) (entriesOf existing)) :=
      valueBlock_closed hnewline plain_nil hwritten fun entry hentry =>
        (hok _ _ ((entriesOf_spec hnodup).2.2.2 entry hentry)).2
    generalize valueBlock [] (newlineFor text) (upperHex 4 index ++ "Value".toList) (entriesOf existing) = new
      at hout hcounted hread hnew hnewName hnewClosed
    have hold := hended
    rw [hlines] at hold
    have hflatten : before ++ (front ++ new :: back).flatten = (before ++ front.flatten) ++ (new ++ back.flatten) := by simp
    have hended' : EndedLines (before ++ (front ++ new :: back).flatten) := by
      rw [hflatten]
      refine (closed_of_ended hold (by simp [hchunk.ne_nil])).ended (hnewClosed.ended ?_)
      exact hold.sublist ((List.sublist_append_right _ _).trans (List.sublist_append_right _ _))
    refine ⟨front ++ new :: back, _, put_replace hchunked hname hback hnew (by rw [hnewName, valuesName]) hended'
      fun hl => absurd hl hnewClosed.not_loose, ?_, hcounted, fun key => ?_⟩
    . have hdrop : ((before ++ front.flatten) ++ (body ++ back.flatten)).drop ((before ++ front.flatten).length + body.length)
          = back.flatten := by rw [← List.append_assoc, ← List.length_append, List.drop_left]
      rw [← splitLines_flatten (lines_of_ended hended'), hflatten, hout, hlines, List.take_left, hdrop]
    . rw [hread, hlookup, hnamed, Option.bind_some]

end

end LelyRtt.Dcf
