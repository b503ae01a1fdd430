import LelyRtt.Dcf.ValueBlock

/-!
This module contains the proof that what is written from `master.bin` is read back from the text, and that all
else is read as before, unless a line is put behind a last line without an end or a value behind its line end.
-/

namespace LelyRtt.Dcf

open Text

/-- The value that is written for an entry. -/
def hexValue (entry : ConciseDcfEntry) : List Char := ['0', 'x'] ++ upperHex 8 (leNat entry.data)

/-- The value of the last entry for a sub-index. -/
def written (entries : List ConciseDcfEntry) (index subidx : Nat) : Option (List Char) :=
  (dictOf (entries.map fun entry => ((entry.index, entry.subidx), hexValue entry))).lookup (index, subidx)

/-- The name of the section with the serial number, and the key of its value. -/
def serialName (cf : CaseFold) : List Char := cf.casefold "1018sub4".toList

def serialKey (cf : CaseFold) : List Char := cf.casefold "ParameterValue".toList

/-- The section that an entry is written into. -/
def targetOf (cf : CaseFold) (entry : ConciseDcfEntry) : List Char :=
  if entry.index = 0x1018 then serialName cf else valuesName cf entry.index

/-- The objects whose values are written. -/
def valueObjects : List Nat := [0x1f55, 0x1f87, 0x1f88]

/-- What is read from the last section of a name. -/
def readSection (cf : CaseFold) (lines : List (List Char)) (name : List Char) : Option (List (KeyValue × Nat)) :=
  ((byName cf lines).lookup name).map (sectionKeyValues lines)

/-- Where entries are written, the lines before them have an end: the value of the serial number does not stand
behind a line end, and a last line without an end is not that of a section that something is put behind. -/
structure Placeable (cf : CaseFold) (lines : List (List Char)) (entries : List ConciseDcfEntry) : Prop where
  head : (∃ entry ∈ entries, entry.index = 0x1018) → ∀ items item, readSection cf lines (serialName cf) = some items →
    lastItem cf items (serialKey cf) = some item → Plain item.1.head
  serial : (∃ entry ∈ entries, entry.index = 0x1018) → ∀ items, readSection cf lines (serialName cf) = some items →
    lastItem cf items (serialKey cf) = none → Loose lines →
    (collectSections lines).getLast?.map (fun s => cf.casefold s.name) ≠ some (serialName cf)
  values : ∀ entry ∈ entries, entry.index ≠ 0x1018 → readSection cf lines (valuesName cf entry.index) = none → Loose lines →
    (collectSections lines).getLast?.map (fun s => cf.casefold s.name) ≠ some (cf.casefold (upperHex 4 entry.index))

/-- The names of the sections, with the keys and the values of their lines. -/
def view (lines : List (List Char)) : List (List Char × List (List Char × List Char)) :=
  (collectSections lines).map fun s =>
    (s.name, (sectionKeyValues lines s).map fun item => (item.1.key, strip item.1.value))

/-- What is read from `lines'` after the entries have been written into `lines`. -/
structure ReadsBack (cf : CaseFold) (entries : List ConciseDcfEntry) (lines lines' : List (List Char)) : Prop where
  serial : ∀ value, written entries 0x1018 4 = some value → ∃ items items₀,
    readSection cf lines' (serialName cf) = some items ∧ readSection cf lines (serialName cf) = some items₀
    ∧ valueAt cf items (serialKey cf) = some value
    ∧ otherItems cf items (serialKey cf) = otherItems cf items₀ (serialKey cf)
  values : ∀ index ∈ valueObjects, (∃ entry ∈ entries, entry.index = index) → ∃ items,
    readSection cf lines' (valuesName cf index) = some items ∧ Counted cf items
    ∧ ∀ key, numericAt cf items key = (written entries index key).or
      ((readSection cf lines (valuesName cf index)).bind fun items => numericAt cf items key)
  others : (view lines').filter (fun s => cf.casefold s.1 ∉ entries.map (targetOf cf))
    = (view lines).filter (fun s => cf.casefold s.1 ∉ entries.map (targetOf cf))

/-- The conditions on the sections of a text. -/
structure PlaceableAt (cf : CaseFold) (before : List (List Char)) (bodies : List (List (List Char)))
    (entries : List ConciseDcfEntry) : Prop where
  head : (∃ entry ∈ entries, entry.index = 0x1018) → ∀ items item, named cf bodies (serialName cf) = some items →
    lastItem cf items (serialKey cf) = some item → Plain item.1.head
  serial : (∃ entry ∈ entries, entry.index = 0x1018) → ∀ items, named cf bodies (serialName cf) = some items →
    lastItem cf items (serialKey cf) = none → Loose (before ++ bodies.flatten) → lastName cf bodies ≠ some (serialName cf)
  values : ∀ entry ∈ entries, entry.index ≠ 0x1018 → named cf bodies (valuesName cf entry.index) = none →
    Loose (before ++ bodies.flatten) → lastName cf bodies ≠ some (cf.casefold (upperHex 4 entry.index))

/-- The entry is one that the tool writes. -/
def Known (entry : ConciseDcfEntry) : Prop :=
  entry.index = 0x1018 ∧ entry.subidx = 4 ∨ entry.index ∈ valueObjects ∧ 0 < entry.subidx

/-- What is read from a text after the entries `done` have been written into it. -/
structure Materialized (cf : CaseFold) (before : List (List Char)) (bodies₀ : List (List (List Char)))
    (done : List ConciseDcfEntry) (bodies : List (List (List Char))) : Prop where
  chunked : Chunked sectionMark (before ++ bodies.flatten) before bodies
  ended : EndedLines (before ++ bodies.flatten)
  known : ∀ entry ∈ done, Known entry
  same : ∀ name, (∀ entry ∈ done, targetOf cf entry ≠ name) → named cf bodies name = named cf bodies₀ name
  serial : (∃ entry ∈ done, entry.index = 0x1018) → ∃ items items₀ item, named cf bodies (serialName cf) = some items
    ∧ named cf bodies₀ (serialName cf) = some items₀ ∧ lastItem cf items (serialKey cf) = some item
    ∧ Plain item.1.head ∧ written done 0x1018 4 = some (strip item.1.value)
    ∧ otherItems cf items (serialKey cf) = otherItems cf items₀ (serialKey cf)
  values : ∀ index ∈ valueObjects, (∃ entry ∈ done, entry.index = index) → ∃ items,
    named cf bodies (valuesName cf index) = some items ∧ Counted cf items
    ∧ ∀ key, numericAt cf items key = (written done index key).or
      ((named cf bodies₀ (valuesName cf index)).bind fun items => numericAt cf items key)
  others : ∀ names : List (List Char), (∀ entry ∈ done, targetOf cf entry ∈ names) →
    (bodies.map reading).filter (fun r => cf.casefold r.1 ∉ names)
      = (bodies₀.map reading).filter (fun r => cf.casefold r.1 ∉ names)
  loose : Loose (before ++ bodies.flatten) → Loose (before ++ bodies₀.flatten) ∧ lastName cf bodies = lastName cf bodies₀

section

variable {cf : CaseFold} {before : List (List Char)} {bodies₀ bodies : List (List (List Char))}
  {done entries : List ConciseDcfEntry} {entry : ConciseDcfEntry} {index subidx : Nat}

theorem written_concat : written (done ++ [entry]) index subidx
    = if (index, subidx) = (entry.index, entry.subidx) then some (hexValue entry) else written done index subidx := by
  rw [written, written, lookup_dictOf, lookup_dictOf, List.map_append, List.reverse_append, List.map_singleton,
    List.reverse_singleton, List.singleton_append, lookup_cons_eq]

/-- The names of the sections of values, and that of the serial number, are different. -/
theorem valuesName_inj (h : index ∈ valueObjects)
    : valuesName cf index ≠ serialName cf
      ∧ ∀ index' ∈ valueObjects, valuesName cf index' = valuesName cf index → index' = index := by
  have hname : ∀ i ∈ valueObjects, valuesName cf i = (upperHex 4 i ++ "Value".toList).map Char.toLower := by
    intro i hi
    refine casefold_ascii ?_
    revert i
    decide
  have hserial : serialName cf = "1018sub4".toList := by
    rw [serialName, casefold_ascii (by decide)]
    decide
  rw [hname index h, hserial]
  refine ⟨?_, fun index' h' heq => ?_⟩
  . revert index
    decide
  . rw [hname index' h'] at heq
    revert index index'
    decide

variable (cf) in
theorem materialized_nil (hchunked : Chunked sectionMark (before ++ bodies₀.flatten) before bodies₀)
    (hended : EndedLines (before ++ bodies₀.flatten)) : Materialized cf before bodies₀ [] bodies₀ :=
  ⟨hchunked, hended, fun _ hmem => (nomatch hmem), fun _ _ => rfl, fun ⟨_, hmem, _⟩ => (nomatch hmem), fun _ _ ⟨_, hmem, _⟩ => (nomatch hmem),
    fun _ _ => rfl, fun h => ⟨h, rfl⟩⟩

variable (cf) in
theorem targetOf_serial (h : entry.index = 0x1018) : targetOf cf entry = serialName cf := if_pos h

variable (cf) in
theorem targetOf_values (h : entry.index ∈ valueObjects) : targetOf cf entry = valuesName cf entry.index := by
  refine if_neg fun heq => ?_
  rw [heq] at h
  exact absurd h (by decide)

theorem serial_not_value : 0x1018 ∉ valueObjects := by decide

theorem mem_concat {p : ConciseDcfEntry → Prop} (h : ∃ e ∈ done ++ [entry], p e) : p entry ∨ ∃ e ∈ done, p e := by
  obtain ⟨e, he, hp⟩ := h
  obtain he | he := List.mem_append.mp he
  . exact .inr ⟨e, he, hp⟩
  . rw [List.mem_singleton.mp he] at hp
    exact .inl hp

variable {bodies' : List (List (List Char))} {items items' : List (KeyValue × Nat)} {item : KeyValue × Nat}

/-- The sections that no entry has been written into are read as before. -/
theorem Materialized.others_put (h : Materialized cf before bodies₀ done bodies)
    (hput : Put cf (targetOf cf entry) items' before bodies bodies') (names : List (List Char))
    (hnames : ∀ e ∈ done ++ [entry], targetOf cf e ∈ names)
    : (bodies'.map reading).filter (fun r => cf.casefold r.1 ∉ names)
      = (bodies₀.map reading).filter (fun r => cf.casefold r.1 ∉ names) := by
  have hfilter (bodies : List (List (List Char))) : (bodies.map reading).filter (fun r => cf.casefold r.1 ∉ names)
      = ((bodies.filter fun body => cf.casefold (nameOf body) ≠ targetOf cf entry).map reading).filter
        (fun r => cf.casefold r.1 ∉ names) := by
    rw [List.filter_map, List.filter_map, List.filter_filter]
    congr 1
    refine List.filter_congr fun body _ => ?_
    have hmem := hnames entry (by simp)
    by_cases heq : cf.casefold (nameOf body) = targetOf cf entry
    . simp [reading, heq, hmem]
    . simp [reading, heq]
  rw [hfilter, hput.others, ← hfilter]
  exact h.others names fun e he => hnames e (List.mem_append_left _ he)

theorem Materialized.same_put (h : Materialized cf before bodies₀ done bodies)
    (hput : Put cf (targetOf cf entry) items' before bodies bodies') (name : List Char)
    (hname : ∀ e ∈ done ++ [entry], targetOf cf e ≠ name) : named cf bodies' name = named cf bodies₀ name := by
  rw [hput.same name fun heq => hname entry (by simp) heq.symm]
  exact h.same name fun e he => hname e (List.mem_append_left _ he)

theorem Materialized.loose_put (h : Materialized cf before bodies₀ done bodies)
    (hput : Put cf (targetOf cf entry) items' before bodies bodies') (hloose : Loose (before ++ bodies'.flatten))
    : Loose (before ++ bodies₀.flatten) ∧ lastName cf bodies' = lastName cf bodies₀ := by
  obtain ⟨hloose', hlast⟩ := hput.loose hloose
  obtain ⟨hloose₀, hlast₀⟩ := h.loose hloose'
  exact ⟨hloose₀, hlast.trans hlast₀⟩

theorem Materialized.known_concat (h : Materialized cf before bodies₀ done bodies) (hknown : Known entry)
    : ∀ e ∈ done ++ [entry], Known e := by
  intro e he
  obtain he | he := List.mem_append.mp he
  . exact h.known e he
  . rwa [List.mem_singleton.mp he]

/-- The serial number is read as before where none has been written. -/
theorem Materialized.same_serial (h : Materialized cf before bodies₀ done bodies)
    (hnone : ¬∃ e ∈ done, e.index = 0x1018) : named cf bodies (serialName cf) = named cf bodies₀ (serialName cf) := by
  refine h.same _ fun e he => ?_
  obtain ⟨hindex, _⟩ | ⟨hindex, _⟩ := h.known e he
  . exact absurd ⟨e, he, hindex⟩ hnone
  . rw [targetOf_values cf hindex]
    exact (valuesName_inj hindex).1

/-- The values of an object are read as before where none have been written. -/
theorem Materialized.same_values (h : Materialized cf before bodies₀ done bodies) (hindex : index ∈ valueObjects)
    (hnone : ¬∃ e ∈ done, e.index = index)
    : named cf bodies (valuesName cf index) = named cf bodies₀ (valuesName cf index) := by
  refine h.same _ fun e he heq => ?_
  obtain ⟨hserial, _⟩ | ⟨hvalue, _⟩ := h.known e he
  . rw [targetOf_serial cf hserial] at heq
    exact (valuesName_inj hindex).1 heq.symm
  . rw [targetOf_values cf hvalue] at heq
    exact hnone ⟨e, he, (valuesName_inj hindex).2 e.index hvalue heq⟩

/-- The serial number is written. -/
theorem Materialized.serial_put (h : Materialized cf before bodies₀ done bodies) (hindex : entry.index = 0x1018)
    (hsubidx : entry.subidx = 4) (hput : Put cf (serialName cf) items' before bodies bodies')
    (hnamed : named cf bodies (serialName cf) = some items) (hitem : lastItem cf items' (serialKey cf) = some item)
    (hplain : Plain item.1.head) (hvalue : strip item.1.value = hexValue entry)
    (hothers : otherItems cf items' (serialKey cf) = otherItems cf items (serialKey cf))
    : Materialized cf before bodies₀ (done ++ [entry]) bodies' := by
  have hput' := hput
  rw [← targetOf_serial cf hindex] at hput'
  refine ⟨hput.chunked, hput.ended, h.known_concat (.inl ⟨hindex, hsubidx⟩), h.same_put hput', fun _ => ?_, ?_,
    h.others_put hput', h.loose_put hput'⟩
  . obtain ⟨items₀, hnamed₀, hothers₀⟩ : ∃ items₀, named cf bodies₀ (serialName cf) = some items₀
        ∧ otherItems cf items (serialKey cf) = otherItems cf items₀ (serialKey cf) := by
      by_cases hdone : ∃ e ∈ done, e.index = 0x1018
      . obtain ⟨items₁, items₀, _, hnamed₁, hnamed₀, _, _, _, hothers₀⟩ := h.serial hdone
        obtain rfl : items = items₁ := Option.some_inj.mp (hnamed.symm.trans hnamed₁)
        exact ⟨items₀, hnamed₀, hothers₀⟩
      . exact ⟨items, (h.same_serial hdone).symm.trans hnamed, rfl⟩
    refine ⟨items', items₀, item, hput.found, hnamed₀, hitem, hplain, ?_, hothers.trans hothers₀⟩
    rw [written_concat, if_pos (by rw [hindex, hsubidx]), hvalue]
  . intro index hmem hexists
    have hne : index ≠ entry.index := fun heq => serial_not_value (hindex ▸ heq ▸ hmem)
    obtain heq | hdone := mem_concat hexists
    . exact absurd heq.symm hne
    . obtain ⟨items₁, hnamed₁, hcounted, hread⟩ := h.values index hmem hdone
      refine ⟨items₁, (hput.same _ (valuesName_inj hmem).1).trans hnamed₁, hcounted, fun key => ?_⟩
      rw [hread, written_concat, if_neg (by simp [hne])]

/-- A value of an object is written. -/
theorem Materialized.values_put (h : Materialized cf before bodies₀ done bodies) (hindex : entry.index ∈ valueObjects)
    (hsubidx : 0 < entry.subidx) (hput : Put cf (valuesName cf entry.index) items' before bodies bodies')
    (hcounted : Counted cf items') (hread : ∀ key, numericAt cf items' key = if key = entry.subidx then some (hexValue entry)
      else (named cf bodies (valuesName cf entry.index)).bind fun items => numericAt cf items key)
    : Materialized cf before bodies₀ (done ++ [entry]) bodies' := by
  have hput' := hput
  rw [← targetOf_values cf hindex] at hput'
  have hserial : entry.index ≠ 0x1018 := fun heq => serial_not_value (heq ▸ hindex)
  refine ⟨hput.chunked, hput.ended, h.known_concat (.inr ⟨hindex, hsubidx⟩), h.same_put hput', fun hexists => ?_, ?_,
    h.others_put hput', h.loose_put hput'⟩
  . obtain heq | hdone := mem_concat hexists
    . exact absurd heq hserial
    . obtain ⟨items₁, items₀, item, hnamed₁, hnamed₀, hitem, hplain, hwritten, hothers⟩ := h.serial hdone
      refine ⟨items₁, items₀, item, (hput.same _ fun heq => (valuesName_inj hindex).1 heq.symm).trans hnamed₁, hnamed₀,
        hitem, hplain, ?_, hothers⟩
      rw [written_concat, if_neg (by simp [hserial.symm]), hwritten]
  . intro index hmem hexists
    by_cases heq : index = entry.index
    . subst heq
      refine ⟨items', hput.found, hcounted, fun key => ?_⟩
      rw [hread, written_concat]
      by_cases hkey : key = entry.subidx
      . rw [if_pos hkey, if_pos (by rw [hkey])]
        rfl
      . rw [if_neg hkey, if_neg (by simp [hkey])]
        by_cases hdone : ∃ e ∈ done, e.index = entry.index
        . obtain ⟨items₁, hnamed₁, _, hread₁⟩ := h.values entry.index hmem hdone
          rw [hnamed₁, Option.bind_some, hread₁]
        . have hnone : written done entry.index key = none := by
            rw [written, lookup_dictOf, List.lookup_eq_none_iff]
            intro item hitem
            obtain ⟨e, he, rfl⟩ := List.mem_map.mp (List.mem_reverse.mp hitem)
            have hne : e.index ≠ entry.index := fun heq => hdone ⟨e, he, heq⟩
            simp [hne.symm]
          rw [h.same_values hmem hdone, hnone, Option.none_or]
    . obtain heq' | hdone := mem_concat hexists
      . exact absurd heq'.symm heq
      . obtain ⟨items₁, hnamed₁, hcounted₁, hread₁⟩ := h.values index hmem hdone
        refine ⟨items₁, (hput.same _ fun hname => heq ((valuesName_inj hindex).2 index hmem hname)).trans hnamed₁,
          hcounted₁, fun key => ?_⟩
        rw [hread₁, written_concat, if_neg (by simp [heq])]

variable {text out : List Char} {maxNodeId : Nat}

/-- One more entry is written. -/
theorem Materialized.step (h : Materialized cf before bodies₀ done bodies) (hplaceable : PlaceableAt cf before bodies₀ entries)
    (hmem : entry ∈ entries) (hlines : splitLines text = before ++ bodies.flatten)
    (hentry : materializeEntry cf maxNodeId text entry = .ok out)
    : ∃ bodies', splitLines out = before ++ bodies'.flatten ∧ Materialized cf before bodies₀ (done ++ [entry]) bodies' := by
  have hended : EndedLines (splitLines text) := hlines ▸ h.ended
  have hchunked : Chunked sectionMark (splitLines text) before bodies := hlines ▸ h.chunked
  unfold materializeEntry at hentry
  split at hentry
  next hserial =>
    obtain ⟨hindex, hsubidx⟩ := hserial
    obtain ⟨_, _, hentry⟩ := bind_eq_ok.mp hentry
    obtain ⟨value, hformat, hentry⟩ := bind_eq_ok.mp hentry
    obtain ⟨rfl, _⟩ := formatU32_ok hformat
    have hkey : Written "ParameterValue".toList := by
      refine ⟨by decide, ?_⟩
      decide
    have hhead : ∀ items item, named cf bodies (serialName cf) = some items →
        lastItem cf items (serialKey cf) = some item → Plain item.1.head := by
      intro items item hnamed hitem
      by_cases hdone : ∃ e ∈ done, e.index = 0x1018
      . obtain ⟨items₁, _, item₁, hnamed₁, _, hitem₁, hplain, _⟩ := h.serial hdone
        obtain rfl : items = items₁ := Option.some_inj.mp (hnamed.symm.trans hnamed₁)
        obtain rfl : item = item₁ := Option.some_inj.mp (hitem.symm.trans hitem₁)
        exact hplain
      . exact hplaceable.head ⟨entry, hmem, hindex⟩ items item ((h.same_serial hdone).symm.trans hnamed) hitem
    have hend : ∀ items, named cf bodies (serialName cf) = some items → lastItem cf items (serialKey cf) = none →
        Loose (splitLines text) → lastName cf bodies ≠ some (serialName cf) := by
      intro items hnamed hnone hloose
      by_cases hdone : ∃ e ∈ done, e.index = 0x1018
      . obtain ⟨items₁, _, item₁, hnamed₁, _, hitem₁, _⟩ := h.serial hdone
        obtain rfl : items = items₁ := Option.some_inj.mp (hnamed.symm.trans hnamed₁)
        rw [hitem₁] at hnone
        cases hnone
      . rw [hlines] at hloose
        obtain ⟨hloose₀, hlast⟩ := h.loose hloose
        rw [hlast]
        exact hplaceable.serial ⟨entry, hmem, hindex⟩ items ((h.same_serial hdone).symm.trans hnamed) hnone hloose₀
    obtain ⟨bodies', items, items', item, hnamed, hput, hout, hitem, hplain, hvalue, hothers⟩ :=
      upsertSectionValue_put hended hchunked hkey (by decide) (written_upperHex 8 _) hhead hend hentry
    exact ⟨bodies', hout, h.serial_put hindex hsubidx hput hnamed hitem hplain hvalue hothers⟩
  next =>
    split at hentry
    next hvalues =>
      obtain ⟨hindex, hsubidx, _⟩ := hvalues
      have hindex : entry.index ∈ valueObjects := by simpa [valueObjects] using hindex
      have hserial : entry.index ≠ 0x1018 := fun heq => serial_not_value (heq ▸ hindex)
      obtain ⟨_, _, hentry⟩ := bind_eq_ok.mp hentry
      split at hentry
      next => cases hentry
      next =>
        obtain ⟨value, hformat, hentry⟩ := bind_eq_ok.mp hentry
        obtain ⟨rfl, _⟩ := formatU32_ok hformat
        have hend : named cf bodies (valuesName cf entry.index) = none → Loose (splitLines text) →
            lastName cf bodies ≠ some (cf.casefold (upperHex 4 entry.index)) := by
          intro hnone hloose
          rw [hlines] at hloose
          obtain ⟨hloose₀, hlast⟩ := h.loose hloose
          rw [hlast]
          refine hplaceable.values entry hmem hserial ?_ hloose₀
          by_cases hdone : ∃ e ∈ done, e.index = entry.index
          . obtain ⟨items₁, hnamed₁, _⟩ := h.values entry.index hindex hdone
            rw [hnamed₁] at hnone
            cases hnone
          . rw [← h.same_values hindex hdone, hnone]
        obtain ⟨bodies', items', hput, hout, hcounted, hread⟩ :=
          upsertCompactValue_put hended hchunked hsubidx (written_upperHex 8 _) hend hentry
        exact ⟨bodies', hout, h.values_put hindex hsubidx hput hcounted hread⟩
    next => cases hentry

/-- All entries are written. -/
theorem Materialized.run {todo : List ConciseDcfEntry} (h : Materialized cf before bodies₀ done bodies)
    (hplaceable : PlaceableAt cf before bodies₀ entries) (htodo : ∀ entry ∈ todo, entry ∈ entries)
    (hlines : splitLines text = before ++ bodies.flatten)
    (hrun : todo.foldlM (materializeEntry cf maxNodeId) text = .ok out)
    : ∃ bodies', splitLines out = before ++ bodies'.flatten ∧ Materialized cf before bodies₀ (done ++ todo) bodies' := by
  induction todo generalizing text done bodies with
  | nil =>
    cases hrun
    exact ⟨bodies, hlines, by simpa using h⟩
  | cons entry todo ih =>
    rw [List.foldlM_cons] at hrun
    obtain ⟨text', hentry, hrun⟩ := bind_eq_ok.mp hrun
    obtain ⟨bodies', hlines', h'⟩ := h.step hplaceable (htodo entry List.mem_cons_self) hlines hentry
    obtain ⟨bodies'', hlines'', h''⟩ := ih h' (fun e he => htodo e (List.mem_cons_of_mem _ he)) hlines' hrun
    exact ⟨bodies'', hlines'', by simpa using h''⟩

end

/-! ### The text as a whole -/

/-- The lines of items are counted from another one. -/
def shift (n : Nat) (items : List (KeyValue × Nat)) : List (KeyValue × Nat) :=
  items.map fun item => (item.1, n + item.2)

section

variable {cf : CaseFold} {lines before : List (List Char)} {bodies : List (List (List Char))} {key name : List Char}
  {items : List (KeyValue × Nat)} {entries : List ConciseDcfEntry} {n : Nat}

theorem lastItem_shift : lastItem cf (shift n items) key = (lastItem cf items key).map fun item => (item.1, n + item.2) := by
  rw [lastItem, lastItem, ← lookup_dictOf_map (fun item : KeyValue × Nat => (item.1, n + item.2)), shift, List.map_map,
    List.map_map]
  rfl

theorem valueAt_shift : valueAt cf (shift n items) key = valueAt cf items key := by
  rw [valueAt, valueAt, lastItem_shift, Option.map_map]
  rfl

theorem otherItems_shift : otherItems cf (shift n items) key = otherItems cf items key := by
  rw [otherItems, otherItems, shift, List.filter_map, List.map_map]
  rfl

theorem numericItems_shift : numericItems cf (shift n items) = numericItems cf items := by
  rw [numericItems, numericItems, shift, List.filterMap_map]
  rfl

theorem numericAt_shift (k : Nat) : numericAt cf (shift n items) k = numericAt cf items k := by
  rw [numericAt, numericAt, numericItems_shift]

variable (cf) in
theorem readSection_eq (hchunked : Chunked sectionMark lines before bodies) (name : List Char)
    : ∃ n, readSection cf lines name = (named cf bodies name).map (shift n) := by
  obtain ⟨hnone, hnames⟩ | ⟨front, body, back, rfl, hname, hback, hfound⟩ := byName_eq cf hchunked name
  . exact ⟨0, by rw [readSection, hnone, named_none hnames]; rfl⟩
  . have hchunk : Chunk sectionMark body := hchunked.chunk body (by simp)
    have hlines : lines = (before ++ front.flatten) ++ (body ++ back.flatten) := by
      rw [hchunked.list]
      simp
    refine ⟨(before ++ front.flatten).length, ?_⟩
    rw [readSection, hfound, named_append, named_cons, named_none hback, if_pos hname.symm, Option.map_some, hlines,
      sectionKeyValues_body _ hchunk.ne_nil]
    rfl

theorem lastSection_eq (hchunked : Chunked sectionMark lines before bodies)
    : (collectSections lines).getLast?.map (fun s => cf.casefold s.name) = lastName cf bodies := by
  have hnames := congrArg List.getLast? (names_chunkSections bodies before.length)
  rw [List.getLast?_map, List.getLast?_map] at hnames
  have hmap := congrArg (Option.map cf.casefold) hnames
  rw [Option.map_map, Option.map_map] at hmap
  rw [collectSections_chunked hchunked]
  exact hmap

theorem view_eq (hchunked : Chunked sectionMark lines before bodies)
    : view lines = (bodies.map reading).map fun r => (r.1, r.2.map fun item => (item.1.key, strip item.1.value)) := by
  rw [view, List.map_map]
  refine collectSections_map hchunked _ _ fun front body back hlines hbody => ?_
  rw [hlines, sectionKeyValues_body _ (hchunked.chunk body hbody).ne_nil, List.map_map]
  rfl

theorem Placeable.at (h : Placeable cf lines entries) (hchunked : Chunked sectionMark lines before bodies)
    : PlaceableAt cf before bodies entries := by
  have hlist := hchunked.list
  refine ⟨fun hexists items item hnamed hitem => ?_, fun hexists items hnamed hnone hloose => ?_,
    fun entry hentry hindex hnamed hloose => ?_⟩
  . obtain ⟨n, hread⟩ := readSection_eq cf hchunked (serialName cf)
    rw [hnamed] at hread
    exact h.head hexists _ (item.1, n + item.2) hread (by rw [lastItem_shift, hitem]; rfl)
  . obtain ⟨n, hread⟩ := readSection_eq cf hchunked (serialName cf)
    rw [hnamed] at hread
    rw [← lastSection_eq hchunked]
    exact h.serial hexists _ hread (by rw [lastItem_shift, hnone]; rfl) (hlist ▸ hloose)
  . obtain ⟨n, hread⟩ := readSection_eq cf hchunked (valuesName cf entry.index)
    rw [hnamed] at hread
    rw [← lastSection_eq hchunked]
    exact h.values entry hentry hindex hread (hlist ▸ hloose)

/-- What is written from `master.bin` is read back. -/
theorem materializeMasterBin_readsBack {text out : List Char} {data : List UInt8} {materialized : List (Nat × Nat)}
    (hended : EndedLines (splitLines text)) (hparse : compactParseConciseDcf data = .ok entries)
    (hplaceable : Placeable cf (splitLines text) entries)
    (h : materializeMasterBin cf text (some data) = .ok (out, materialized))
    : ReadsBack cf entries (splitLines text) (splitLines out) := by
  obtain ⟨before, bodies, hchunked⟩ := exists_chunked sectionMark (splitLines text)
  have hlist := hchunked.list
  simp only [materializeMasterBin, hparse] at h
  obtain ⟨maxNodeId, _, h⟩ := bind_eq_ok.mp h
  obtain ⟨text', hrun, h⟩ := bind_eq_ok.mp h
  cases h
  obtain ⟨bodies', hlines', hmaterialized⟩ := (materialized_nil cf (hlist ▸ hchunked) (hlist ▸ hended)).run
    (hplaceable.at hchunked) (fun _ hentry => hentry) hlist hrun
  rw [List.nil_append] at hmaterialized
  have hchunked' : Chunked sectionMark (splitLines out) before bodies' := hlines' ▸ hmaterialized.chunked
  refine ⟨fun value hvalue => ?_, fun index hindex hexists => ?_, ?_⟩
  . have hexists : ∃ entry ∈ entries, entry.index = 0x1018 := by
      obtain ⟨entry, hentry, heq⟩ := List.mem_map.mp (mem_of_lookup hvalue)
      exact ⟨entry, hentry, (Prod.mk.inj (Prod.mk.inj heq).1).1⟩
    obtain ⟨items, items₀, item, hnamed, hnamed₀, hitem, _, hwritten, hothers⟩ := hmaterialized.serial hexists
    obtain ⟨n, hread⟩ := readSection_eq cf hchunked' (serialName cf)
    obtain ⟨n₀, hread₀⟩ := readSection_eq cf hchunked (serialName cf)
    rw [hnamed] at hread
    rw [hnamed₀] at hread₀
    refine ⟨_, _, hread, hread₀, ?_, ?_⟩
    . rw [valueAt_shift, valueAt, hitem, ← hvalue, hwritten]
      rfl
    . rw [otherItems_shift, otherItems_shift, hothers]
  . obtain ⟨items, hnamed, hcounted, hnumeric⟩ := hmaterialized.values index hindex hexists
    obtain ⟨n, hread⟩ := readSection_eq cf hchunked' (valuesName cf index)
    obtain ⟨n₀, hread₀⟩ := readSection_eq cf hchunked (valuesName cf index)
    rw [hnamed] at hread
    refine ⟨_, hread, ?_, fun key => ?_⟩
    . rwa [Counted, valueAt_shift, numericItems_shift]
    . rw [numericAt_shift, hnumeric, hread₀, Option.bind_map]
      simp only [Function.comp_def, numericAt_shift]
  . have hothers := hmaterialized.others (entries.map (targetOf cf)) fun entry hentry => List.mem_map_of_mem hentry
    have hfilter (l : List (List Char × List (KeyValue × Nat)))
        : (l.map fun r => (r.1, r.2.map fun item => (item.1.key, strip item.1.value))).filter
            (fun s => cf.casefold s.1 ∉ entries.map (targetOf cf))
          = (l.filter fun r => cf.casefold r.1 ∉ entries.map (targetOf cf)).map
            fun r => (r.1, r.2.map fun item => (item.1.key, strip item.1.value)) := List.filter_map
    rw [view_eq hchunked, view_eq hchunked', hfilter, hfilter, hothers]

/-- The serial number and the first software identification of a text without values. -/
theorem materializeMasterBin_readsBack_serial
    : ReadsBack .lower [⟨0x1018, 4, [1, 0, 0, 0]⟩, ⟨0x1f55, 1, [2, 0, 0, 0]⟩]
      (splitLines "[1F55]\nDataType=0x0007\n[1018sub4]\nDataType=0x0007\n".toList)
      (splitLines "[1F55]\nDataType=0x0007\n[1F55Value]\nNrOfEntries=1\n1=0x00000002\n\n[1018sub4]\nDataType=0x0007\nParameterValue=0x00000001\n".toList) := by
  obtain ⟨text, htext⟩ : ∃ text, text = "[1F55]\nDataType=0x0007\n[1018sub4]\nDataType=0x0007\n".toList := ⟨_, rfl⟩
  have hlines : splitLines text = ["[1F55]".toList ++ ['\n'], "DataType=0x0007".toList ++ ['\n'],
      "[1018sub4]".toList ++ ['\n'], "DataType=0x0007".toList ++ ['\n']] := by
    rw [htext]
    decide +kernel
  have hclosed : Closed (splitLines text) := by
    rw [hlines]
    exact (closed_line (by decide) (.inl rfl)).append ((closed_line (by decide) (.inl rfl)).append
      ((closed_line (by decide) (.inl rfl)).append (closed_line (by decide) (.inl rfl))))
  have hended : EndedLines (splitLines text) := by
    have hall := hclosed.ended .nil
    rwa [List.append_nil] at hall
  have hnone : (readSection .lower (splitLines text) (serialName .lower)).bind
      (fun items => lastItem .lower items (serialKey .lower)) = none := by
    rw [htext]
    decide +kernel
  have hplaceable : Placeable .lower (splitLines text) [⟨0x1018, 4, [1, 0, 0, 0]⟩, ⟨0x1f55, 1, [2, 0, 0, 0]⟩] := by
    refine ⟨fun _ items item hitems hitem => ?_, fun _ _ _ _ hloose => absurd hloose hclosed.not_loose,
      fun _ _ _ _ hloose => absurd hloose hclosed.not_loose⟩
    rw [hitems, Option.bind_some, hitem] at hnone
    cases hnone
  have hrun : materializeMasterBin .lower text (some [2, 0, 0, 0, 0x18, 0x10, 4, 4, 0, 0, 0, 1, 0, 0, 0,
      0x55, 0x1f, 1, 4, 0, 0, 0, 2, 0, 0, 0])
      = .ok ("[1F55]\nDataType=0x0007\n[1F55Value]\nNrOfEntries=1\n1=0x00000002\n\n[1018sub4]\nDataType=0x0007\nParameterValue=0x00000001\n".toList,
        [(0x1018, 4), (0x1f55, 1)]) := by
    rw [htext]
    decide +kernel
  rw [← htext]
  exact materializeMasterBin_readsBack hended (by decide +kernel) hplaceable hrun

/-- Lines are merged where something is put behind a last line without an end, and where a value is put behind the
line end of an empty one. -/
theorem materializeMasterBin_merges
    : (materializeMasterBin .lower "[1018sub4]\nDataType=0x0007".toList
          (some [1, 0, 0, 0, 0x18, 0x10, 4, 4, 0, 0, 0, 1, 0, 0, 0])
        = .ok ("[1018sub4]\nDataType=0x0007ParameterValue=0x00000001\n".toList, [(0x1018, 4)])
      ∧ ¬ReadsBack .lower [⟨0x1018, 4, [1, 0, 0, 0]⟩] (splitLines "[1018sub4]\nDataType=0x0007".toList)
        (splitLines "[1018sub4]\nDataType=0x0007ParameterValue=0x00000001\n".toList))
      ∧ (materializeMasterBin .lower "[1018sub4]\nDataType=0x0007\nParameterValue=\n[1018sub3]\n".toList
          (some [1, 0, 0, 0, 0x18, 0x10, 4, 4, 0, 0, 0, 1, 0, 0, 0])
        = .ok ("[1018sub4]\nDataType=0x0007\nParameterValue=\n0x00000001[1018sub3]\n".toList, [(0x1018, 4)])
      ∧ ¬ReadsBack .lower [⟨0x1018, 4, [1, 0, 0, 0]⟩]
        (splitLines "[1018sub4]\nDataType=0x0007\nParameterValue=\n[1018sub3]\n".toList)
        (splitLines "[1018sub4]\nDataType=0x0007\nParameterValue=\n0x00000001[1018sub3]\n".toList))
      ∧ materializeMasterBin .lower "[1F55]\nDataType=0x0007".toList
          (some [1, 0, 0, 0, 0x55, 0x1f, 1, 4, 0, 0, 0, 2, 0, 0, 0])
        = .ok ("[1F55]\nDataType=0x0007[1F55Value]\nNrOfEntries=1\n1=0x00000002\n\n".toList, [(0x1f55, 1)])
      ∧ ¬ReadsBack .lower [⟨0x1f55, 1, [2, 0, 0, 0]⟩] (splitLines "[1F55]\nDataType=0x0007".toList)
        (splitLines "[1F55]\nDataType=0x0007[1F55Value]\nNrOfEntries=1\n1=0x00000002\n\n".toList) := by
  have hserial {entries : List ConciseDcfEntry} {lines lines' : List (List Char)}
      (hwritten : written entries 0x1018 4 = some "0x00000001".toList)
      (hread : (readSection .lower lines' (serialName .lower)).bind
        (fun items => valueAt .lower items (serialKey .lower)) ≠ some "0x00000001".toList)
      : ¬ReadsBack .lower entries lines lines' := by
    intro h
    obtain ⟨items, _, hitems, _, hvalue, _⟩ := h.serial _ hwritten
    rw [hitems, Option.bind_some, hvalue] at hread
    exact hread rfl
  refine ⟨⟨by decide +kernel, hserial (by decide +kernel) (by decide +kernel)⟩,
    ⟨by decide +kernel, hserial (by decide +kernel) (by decide +kernel)⟩, by decide +kernel, fun h => ?_⟩
  obtain ⟨items, hitems, _⟩ := h.values 0x1f55 (by decide) ⟨_, List.mem_cons_self, rfl⟩
  have hnone : readSection .lower (splitLines
      "[1F55]\nDataType=0x0007[1F55Value]\nNrOfEntries=1\n1=0x00000002\n\n".toList) (valuesName .lower 0x1f55) = none := by
    decide +kernel
  rw [hnone] at hitems
  cases hitems

end

end LelyRtt.Dcf
