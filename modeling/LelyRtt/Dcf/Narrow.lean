import LelyRtt.Dcf.Idempotent
import LelyRtt.Dcf.ReadBack

/-!
This module contains the proof that a range that becomes smaller keeps the values of its object, apart from
those behind the error history and those of nodes that are not configured.
-/

namespace LelyRtt.Dcf

open Text

/-- The last section with the values of an object. -/
def ValuesAt (lines : List (List Char)) (object : List Char) (s : Section) : Prop :=
  ∃ front back, collectSections lines = front ++ s :: back ∧ (valueSection s.name).map upper = some object
    ∧ ∀ t ∈ back, (valueSection t.name).map upper ≠ some object

/-- The sub-indexes that the tool has no other reason to cut off. -/
def InRange (depth maxNodeId : Nat) (object : List Char) (key : Nat) : Prop :=
  (object = "1003".toList → key ≤ max 1 depth) ∧ (object ∈ nodeIndexedObjects → key ≤ maxNodeId)

/-- What becomes of the range of the object of a section of `lines`. -/
structure Narrowed (cf : CaseFold) (depth maxNodeId : Nat) (lines body body' : List (List Char)) : Prop where
  name : nameOf body' = nameOf body
  count : ∀ v j n, isObject (nameOf body) = true → (bodyValues cf body).lookup "compactsubobj".toList = some (v, j) →
    parseInt v = some n → 0 < n → ∃ v' m, (bodyValues cf body').lookup "compactsubobj".toList = some (v', j)
      ∧ parseInt v' = some m ∧ 1 ≤ m ∧ m ≤ n
      ∧ ∀ s key, ValuesAt lines (upper (nameOf body)) s → key ∈ numericValueKeys cf lines s → key ≤ n →
        InRange depth maxNodeId (upper (nameOf body)) key → key ≤ m

/-- The ranges of the objects of a text, in the order of their sections. -/
def objectRanges (cf : CaseFold) (lines : List (List Char)) : List (List Char × Option (List Char)) :=
  ((collectSections lines).map fun s =>
    (s.name, ((sectionValues cf lines s).lookup "compactsubobj".toList).map (·.1))).filter fun r => isObject r.1

section

variable {cf : CaseFold} {lines before body body₁ body₂ : List (List Char)} {bodies : List (List (List Char))}
  {object text text₀ text₁ : List Char} {s : Section} {depth maxNodeId r limit key n : Nat} {keys : List (List Char × List Nat)}
  {masterBin : Option (List UInt8)} {result : CompactResult}

theorem explicitValueKeys_lookup (h : ValuesAt lines object s)
    : (explicitValueKeys cf lines).lookup object = some (numericValueKeys cf lines s) := by
  obtain ⟨front, back, hsections, hs, hback⟩ := h
  have hnone : ((back.filterMap fun t => (valueSection t.name).map fun o => (upper o, numericValueKeys cf lines t)).reverse).lookup
      object = none := by
    rw [List.lookup_eq_none_iff]
    intro entry hentry
    obtain ⟨t, ht, heq⟩ := List.mem_filterMap.mp (List.mem_reverse.mp hentry)
    obtain ⟨o, ho, rfl⟩ := Option.map_eq_some_iff.mp heq
    have hne := hback t ht
    rw [ho, Option.map_some] at hne
    simpa using fun heq : object = upper o => hne (congrArg some heq.symm)
  obtain ⟨o, ho, rfl⟩ := Option.map_eq_some_iff.mp hs
  rw [explicitValueKeys, lookup_dictOf, hsections, List.filterMap_append, List.filterMap_cons]
  simp only [ho, Option.map_some]
  rw [List.reverse_append, List.reverse_cons, List.lookup_append, List.lookup_append, hnone, lookup_cons_eq, if_pos rfl]
  rfl

/-- A range keeps the sub-indexes that the tool has no reason to cut off. -/
theorem le_compactTarget {explicit : List Nat} (hkeys : keys.lookup object = some explicit) (hkey : key ∈ explicit)
    (hle : key ≤ n) (hrange : InRange depth maxNodeId object key)
    : key ≤ compactTarget depth maxNodeId keys object n := by
  unfold compactTarget
  dsimp only
  split
  next h1003 =>
    have hdepth := hrange.1 h1003
    omega
  next =>
    split
    next hnode =>
      have hnodeId := hrange.2 hnode
      omega
    next =>
      rw [hkeys, Option.getD_some]
      cases hmax : explicit.max? with
      | none =>
        simp only
        omega
      | some highest =>
        have hhighest := (List.max?_eq_some_iff.mp hmax).2 key hkey
        simp only
        omega

theorem Ranged.narrowed (h : Ranged cf depth maxNodeId (explicitValueKeys cf lines) body₁ body₂)
    (hname : nameOf body₁ = nameOf body)
    (hlookup : (bodyValues cf body₁).lookup "compactsubobj".toList = (bodyValues cf body).lookup "compactsubobj".toList)
    : Narrowed cf depth maxNodeId lines body body₂ := by
  refine ⟨by rw [nameOf, h.evolved.2, ← nameOf, hname], fun v j n hobject hv hn hpos => ?_⟩
  have hkey {m : Nat} (hm : compactTarget depth maxNodeId (explicitValueKeys cf lines) (upper (nameOf body)) n ≤ m)
      : ∀ s key, ValuesAt lines (upper (nameOf body)) s → key ∈ numericValueKeys cf lines s → key ≤ n →
        InRange depth maxNodeId (upper (nameOf body)) key → key ≤ m :=
    fun s key hs hkey hle hrange =>
      Nat.le_trans (le_compactTarget (explicitValueKeys_lookup hs) hkey hle hrange) hm
  cases h with
  | keep hsettled =>
    rw [hlookup]
    exact ⟨v, n, hv, hn, hpos, Nat.le_refl n, fun _ _ _ _ hle _ => hle⟩
  | @lower v' j' n' target kv _ hv' hn' htarget hless hrewrite =>
    rw [hlookup, hv] at hv'
    cases hv'
    obtain rfl : n = n' := Option.some_inj.mp (hn.symm.trans hn')
    rw [hname] at htarget
    refine ⟨decimal target, target, ?_, parseInt_decimal target, ?_, Nat.le_of_lt hless, hkey (Nat.le_of_eq htarget.symm)⟩
    . rw [hrewrite.bodyValues, hlookup, hv]
      simp
    . rw [htarget]
      exact compactTarget_pos n

theorem kept_of_isObject (h : isObject (nameOf body) = true) : kept body = true := by
  have hlength : (nameOf body).length = 4 := by
    unfold isObject at h
    simp only [decide_eq_true_eq] at h
    exact h.1
  have hdrop : (nameOf body).drop 4 = [] := List.drop_eq_nil_of_le (Nat.le_of_eq hlength)
  rw [kept, reservedObject, reservedSub4, hdrop]
  dsimp only
  split <;> rfl

/-- The sections that are removed have no node-IDs. -/
theorem nodeIdsOf_kept : nodeIdsOf cf ((bodies.filter kept).map (traits cf)) = nodeIdsOf cf (bodies.map (traits cf)) := by
  rw [nodeIdsOf, nodeIdsOf, List.map_map, List.map_map]
  congr 1
  refine lookup_dictOf_filter fun body _ hkept => ?_
  intro hname
  obtain ⟨object, hobject⟩ : ∃ object, reservedObject (nameOf body) = some object := by
    rw [← Option.isSome_iff_exists]
    simpa [kept] using hkept
  have hlast := casefold_reserved cf hobject
  have hname : cf.casefold (nameOf body) = "1f81value".toList := hname
  rw [hname] at hlast
  exact absurd hlast (by decide)

/-- The sections that are removed have no values of objects. -/
theorem valueKeysOf_kept : valueKeysOf ((bodies.filter kept).map (traits cf)) = valueKeysOf (bodies.map (traits cf)) := by
  rw [valueKeysOf, valueKeysOf, List.filterMap_map, List.filterMap_map, List.filterMap_filter]
  congr 1
  refine List.filterMap_congr fun body _ => ?_
  cases hkept : kept body with
  | true => rfl
  | false =>
    obtain ⟨object, hobject⟩ : ∃ object, reservedObject (nameOf body) = some object := by
      rw [← Option.isSome_iff_exists]
      simpa [kept] using hkept
    have hname : valueSection (traits cf body).name = none := valueSection_reserved hobject
    simp only [Function.comp_apply, hname]
    rfl

theorem forall₂_comp {α : Type} {R S : α → α → Prop} {l l' l'' : List α} (h : List.Forall₂ R l l')
    (h' : List.Forall₂ S l' l'') : List.Forall₂ (fun a c => ∃ b, R a b ∧ S b c) l l'' := by
  induction h generalizing l'' with
  | nil =>
    cases h'
    exact .nil
  | cons hfirst _ ih =>
    cases h' with
    | cons hfirst' hrest' => exact .cons ⟨_, hfirst, hfirst'⟩ (ih hrest')

theorem Lowered.lookup_ne {k : List Char} (h : Lowered cf r body body₁) (hne : k ≠ "subnumber".toList)
    : (bodyValues cf body₁).lookup k = (bodyValues cf body).lookup k := by
  cases h with
  | keep => rfl
  | lower hv _ _ _ hrewrite => exact hrewrite.lookup_ne hv hne

/-- The passes of `compact_dcf`. -/
theorem compactDcf_passes (h : compactDcf cf text masterBin depth limit = .ok result)
    : ∃ text₀ text₁ text₂, normalizeMasterObjectContracts cf text = .ok text₀
      ∧ materializeMasterBin cf text₀ masterBin = .ok (text₁, result.materialized)
      ∧ stripReservedTpdoSub4 cf text₁ = .ok (text₂, result.removedReservedTpdo)
      ∧ compactRanges cf depth text₂ = .ok (result.output, result.changes, result.maxNodeId) := by
  unfold compactDcf at h
  obtain ⟨text₀, hnormalize, h⟩ := bind_eq_ok.mp h
  obtain ⟨⟨text₁, materialized⟩, hmaterialize, h⟩ := bind_eq_ok.mp h
  obtain ⟨⟨text₂, removed⟩, hstrip, h⟩ := bind_eq_ok.mp h
  obtain ⟨⟨output, changes, maxNodeId⟩, hranges, h⟩ := bind_eq_ok.mp h
  obtain ⟨⟨⟩, _, h⟩ := bind_eq_ok.mp h
  dsimp only at h
  split at h
  next => cases h
  next =>
    cases h
    exact ⟨text₀, text₁, text₂, hnormalize, hmaterialize, hstrip, hranges⟩

/-! ### The ranges before the compaction -/

def bodyRange (cf : CaseFold) (body : List (List Char)) : List Char × Option (List Char) :=
  (nameOf body, ((bodyValues cf body).lookup "compactsubobj".toList).map (·.1))

theorem objectRanges_chunked (h : Chunked sectionMark lines before bodies)
    : objectRanges cf lines = (bodies.map (bodyRange cf)).filter fun r => isObject r.1 := by
  have hsections := collectSections_map h
    (fun s => (s.name, ((sectionValues cf lines s).lookup "compactsubobj".toList).map (·.1))) (bodyRange cf)
    fun front body back hlines hbody => by
      dsimp only
      rw [sectionValues_chunked h hlines hbody, bodyRange]
  rw [objectRanges, hsections]

/-- The ranges of the objects are among what is read from their sections. -/
theorem bodyRange_reading (bodies : List (List (List Char)))
    : (bodies.map (bodyRange cf)).filter (fun r => isObject r.1)
      = ((bodies.map reading).filter fun r => isObject r.1).map fun r =>
        (r.1, valueAt cf r.2 "compactsubobj".toList) := by
  have hreading : bodies.map (bodyRange cf)
      = (bodies.map reading).map fun r => (r.1, valueAt cf r.2 "compactsubobj".toList) := by
    rw [List.map_map]
    refine List.map_congr_left fun body _ => ?_
    rw [bodyRange, bodyValues_lastItem, Option.map_map]
    rfl
  rw [hreading, List.filter_map]
  rfl

/-- The contracts change no range. -/
theorem normalizeMasterObjectContracts_ranges (hended : EndedLines (splitLines text))
    (h : normalizeMasterObjectContracts cf text = .ok text₀)
    : objectRanges cf (splitLines text₀) = objectRanges cf (splitLines text) := by
  obtain ⟨before, bodies, hchunked⟩ := exists_chunked sectionMark (splitLines text)
  obtain ⟨bodies₀, hnormalized, hchunked₀, _⟩ := normalizeMasterObjectContracts_ok hended hchunked h
  have hrange : bodies₀.map (bodyRange cf) = bodies.map (bodyRange cf) :=
    map_of_forall₂ hnormalized fun body body₀ hbody => by
      rw [bodyRange, hbody.lookup_ne (by decide), nameOf, hbody.evolved.2, ← nameOf, bodyRange]
  rw [objectRanges_chunked hchunked, objectRanges_chunked hchunked₀, hrange]

theorem isHex_ascii {c : Char} (h : isHex c = true) : c.toNat < 128 := by
  have hle {d : Char} (hcd : c ≤ d) (hd : d.toNat < 128) : c.toNat < 128 :=
    Nat.lt_of_le_of_lt (UInt32.le_iff_toNat_le.mp hcd) hd
  unfold isHex hexDigit at h
  split at h
  next hc => exact hle hc.2 (by decide)
  next =>
    split at h
    next hc => exact hle hc.2 (by decide)
    next =>
      split at h
      next hc => exact hle hc.2 (by decide)
      next => cases h

/-- No entry is written into the section of an object. -/
theorem targetOf_ne {name : List Char} (h : isObject name = true) {entry : ConciseDcfEntry} (hknown : Known entry)
    : targetOf cf entry ≠ cf.casefold name := by
  obtain ⟨hlength, hhex⟩ : name.length = 4 ∧ name.all isHex = true := by simpa [isObject] using h
  have hname : (cf.casefold name).length = 4 := by
    rw [casefold_ascii fun c hc => isHex_ascii (List.all_eq_true.mp hhex c hc), List.length_map, hlength]
  rintro heq
  rw [← heq] at hname
  obtain ⟨hindex, _⟩ | ⟨hindex, _⟩ := hknown
  . rw [targetOf_serial cf hindex, serialName, casefold_ascii (by decide)] at hname
    cases hname
  . rw [targetOf_values cf hindex, valuesName, casefold_append, casefold_ascii (s := "Value".toList) (by decide),
      List.length_append] at hname
    simp at hname

/-- Nor does the file of the master, if the lines that it is written behind have an end. -/
theorem materializeMasterBin_ranges (hended : EndedLines (splitLines text))
    (hplaceable : ∀ data entries, masterBin = some data → compactParseConciseDcf data = .ok entries →
      Placeable cf (splitLines text) entries) {materialized : List (Nat × Nat)}
    (h : materializeMasterBin cf text masterBin = .ok (text₁, materialized))
    : objectRanges cf (splitLines text₁) = objectRanges cf (splitLines text) := by
  cases masterBin with
  | none =>
    cases h
    rfl
  | some data =>
    unfold materializeMasterBin at h
    dsimp only at h
    split at h
    next => cases h
    next entries hparse =>
      obtain ⟨before, bodies, hchunked⟩ := exists_chunked sectionMark (splitLines text)
      have hlist := hchunked.list
      obtain ⟨maxNodeId, _, h⟩ := bind_eq_ok.mp h
      obtain ⟨text', hrun, h⟩ := bind_eq_ok.mp h
      cases h
      obtain ⟨bodies₁, hlines, hmaterialized⟩ := (materialized_nil cf (hlist ▸ hchunked) (hlist ▸ hended)).run
        ((hplaceable data entries rfl hparse).at hchunked) (fun _ hentry => hentry) hlist hrun
      rw [List.nil_append] at hmaterialized
      have hothers := hmaterialized.others (entries.map (targetOf cf)) fun entry => List.mem_map_of_mem
      have hobjects (l : List (List Char × List (KeyValue × Nat))) : l.filter (fun r => isObject r.1)
          = (l.filter fun r => cf.casefold r.1 ∉ entries.map (targetOf cf)).filter fun r => isObject r.1 := by
        rw [List.filter_filter]
        refine List.filter_congr fun r _ => ?_
        by_cases hobject : isObject r.1 = true
        . have hnot : cf.casefold r.1 ∉ entries.map (targetOf cf) := fun hmem => by
            obtain ⟨entry, hentry, heq⟩ := List.mem_map.mp hmem
            exact targetOf_ne hobject (hmaterialized.known entry hentry) heq
          simp only [hobject, hnot, not_false_eq_true, decide_true, Bool.and_self]
        . simp only [hobject, Bool.false_and]
      rw [objectRanges_chunked hchunked, objectRanges_chunked (hlines ▸ hmaterialized.chunked), bodyRange_reading,
        bodyRange_reading, hobjects, hothers, ← hobjects]

/--
The compaction narrows the ranges of the objects of a text, and keeps their values. The ranges that it
narrows are those of the given text, if the lines that the file of the master is written behind have an
end.
-/
theorem compactDcf_keeps_values (hended : EndedLines (splitLines text))
    (h : compactDcf cf text masterBin depth limit = .ok result)
    : ∃ text₀ text₁, normalizeMasterObjectContracts cf text = .ok text₀
      ∧ materializeMasterBin cf text₀ masterBin = .ok (text₁, result.materialized)
      ∧ configuredMaxNodeId cf text₁ = .ok result.maxNodeId
      ∧ ∃ (before : List (List Char)) (bodies bodies' : List (List (List Char))),
        Chunked sectionMark (splitLines text₁) before bodies
        ∧ Chunked sectionMark (splitLines result.output) before bodies'
        ∧ (∀ body ∈ bodies, isObject (nameOf body) = true → kept body = true)
        ∧ List.Forall₂ (Narrowed cf depth result.maxNodeId (splitLines text₁)) (bodies.filter kept) bodies'
        ∧ ((∀ data entries, masterBin = some data → compactParseConciseDcf data = .ok entries →
            Placeable cf (splitLines text₀) entries) →
          objectRanges cf (splitLines text₁) = objectRanges cf (splitLines text)) := by
  obtain ⟨text₀, text₁, text₂, hnormalize, hmaterialize, hstrip, hranges⟩ := compactDcf_passes h
  obtain ⟨before₀, bodies₀, hchunked₀⟩ := exists_chunked sectionMark (splitLines text)
  obtain ⟨_, _, _, hended₀, _⟩ := normalizeMasterObjectContracts_ok hended hchunked₀ hnormalize
  have hended₁ := materializeMasterBin_ended hended₀ hmaterialize
  obtain ⟨before, bodies, hchunked⟩ := exists_chunked sectionMark (splitLines text₁)
  obtain ⟨bodies₂, hstripped, hsplit₂, _, hended₂, _⟩ := stripReservedTpdoSub4_ok hended₁ hchunked hstrip
  rw [← hsplit₂] at hended₂
  have hchunked₂ : Chunked sectionMark (splitLines text₂) before (bodies₂.filter kept) :=
    ⟨hsplit₂, hchunked.before, fun body hbody => hstripped.chunk hchunked.chunk body (List.mem_of_mem_filter hbody)⟩
  obtain ⟨hmax, bodies₃, hranged, hchunked₃, _⟩ := compactRanges_ok hended₂ hchunked₂ hranges
  have htraits₂ : bodies₂.map (traits cf) = bodies.map (traits cf) :=
    map_of_forall₂ hstripped.lowered fun _ _ ⟨_, hlowered⟩ => hlowered.traits
  rw [valueKeysOf_kept, htraits₂, ← explicitValueKeys_traits hchunked] at hranged
  rw [configuredMaxNodeId_traits hchunked₂, nodeIdsOf_kept, htraits₂, ← configuredMaxNodeId_traits hchunked] at hmax
  refine ⟨text₀, text₁, hnormalize, hmaterialize, hmax, before, bodies, bodies₃, hchunked, hchunked₃,
    fun body _ => kept_of_isObject, ?_, fun hplaceable => ?_⟩
  . have hfiltered : List.Forall₂ (fun body₀ body => ∃ r, Lowered cf r body₀ body) (bodies.filter kept)
        (bodies₂.filter kept) := by
      refine List.rel_filter (fun body body' hbody => ?_) hstripped.lowered
      obtain ⟨_, hlowered⟩ := hbody
      simp only [kept, nameOf, hlowered.evolved.2]
    refine (forall₂_comp hfiltered hranged).imp ?_
    rintro body body₃ ⟨body₂, ⟨_, hlowered⟩, hrange⟩
    exact hrange.narrowed (by rw [nameOf, hlowered.evolved.2, nameOf]) (hlowered.lookup_ne (by decide))
  . exact (materializeMasterBin_ranges hended₀ hplaceable hmaterialize).trans
      (normalizeMasterObjectContracts_ranges hended hnormalize)

/-- An object of 20 sub-objects with a value of its fifth. -/
theorem compactDcf_keeps_values_fifth
    : ∃ (text₁ : List Char) (before : List (List Char)) (bodies bodies' : List (List (List Char))),
      Chunked sectionMark (splitLines text₁) before bodies
      ∧ Chunked sectionMark (splitLines "[2000]\nCompactSubObj=5\n[2000Value]\n5=1\n".toList) before bodies'
      ∧ List.Forall₂ (Narrowed .lower 8 1 (splitLines text₁)) (bodies.filter kept) bodies'
      ∧ objectRanges .lower (splitLines text₁)
        = objectRanges .lower (splitLines "[2000]\nCompactSubObj=20\n[2000Value]\n5=1\n".toList) := by
  obtain ⟨text, htext⟩ : ∃ text, text = "[2000]\nCompactSubObj=20\n[2000Value]\n5=1\n".toList := ⟨_, rfl⟩
  have hended : EndedLines (splitLines text) := by
    have hlines : splitLines text = ["[2000]".toList ++ ['\n'], "CompactSubObj=20".toList ++ ['\n'],
        "[2000Value]".toList ++ ['\n'], "5=1".toList ++ ['\n']] := by
      rw [htext]
      decide +kernel
    rw [hlines]
    exact .cons (by decide) (.inl rfl) (.cons (by decide) (.inl rfl) (.cons (by decide) (.inl rfl)
      (.cons (by decide) (.inl rfl) .nil)))
  have hrun : compactDcf .lower text none 8 0
      = .ok ⟨"[2000]\nCompactSubObj=5\n[2000Value]\n5=1\n".toList, [⟨"2000".toList, 20, 5⟩], [], [], 1, (1, 21), (1, 6)⟩ := by
    rw [htext]
    decide +kernel
  obtain ⟨_, text₁, _, _, _, before, bodies, bodies', hchunked, hchunked', _, hall, hranges⟩ :=
    compactDcf_keeps_values hended hrun
  exact ⟨text₁, before, bodies, bodies', hchunked, hchunked', hall, htext ▸ hranges fun _ _ hdata => nomatch hdata⟩

/-- The range of an object of a text, and the keys of its values. -/
def valuesIn (cf : CaseFold) (text object : List Char) : Option Nat × List Nat :=
  (((objectRanges cf (splitLines text)).lookup object).bind fun range => range.bind parseInt,
    ((collectSections (splitLines text)).filter fun s => (valueSection s.name).map upper = some object).flatMap
      (numericValueKeys cf (splitLines text)))

/-- A key of the values of an object that the range of `text` has, and that of `out` has not. -/
def CutOff (cf : CaseFold) (text out object : List Char) (key : Nat) : Prop :=
  key ∈ (valuesIn cf text object).2 ∧ (∃ n ∈ (valuesIn cf text object).1, key ≤ n)
    ∧ ∃ m ∈ (valuesIn cf out object).1, m < key

instance (cf : CaseFold) (text out object : List Char) (key : Nat) : Decidable (CutOff cf text out object key) :=
  inferInstanceAs (Decidable (_ ∧ _ ∧ _))

/--
Values are cut off behind the error history (the tenth of object 1003), of nodes that are not configured
(the fifth of object 1016), and of an object with a second section of values (the tenth of object 2000); a
range of 0 is kept, and a carriage return by itself is lost with the value before it.
-/
theorem compactDcf_cuts_values
    : ((compactDcf .lower "[1003]\nCompactSubObj=20\n[1003Value]\n10=1\n".toList none 8 0).map (·.output)
        = .ok "[1003]\nCompactSubObj=8\n[1003Value]\n10=1\n".toList
      ∧ CutOff .lower "[1003]\nCompactSubObj=20\n[1003Value]\n10=1\n".toList
        "[1003]\nCompactSubObj=8\n[1003Value]\n10=1\n".toList "1003".toList 10)
      ∧ ((compactDcf .lower "[1016]\nCompactSubObj=127\n[1016Value]\n5=1\n".toList none 8 0).map (·.output)
        = .ok "[1016]\nCompactSubObj=1\n[1016Value]\n5=1\n".toList
      ∧ CutOff .lower "[1016]\nCompactSubObj=127\n[1016Value]\n5=1\n".toList
        "[1016]\nCompactSubObj=1\n[1016Value]\n5=1\n".toList "1016".toList 5)
      ∧ ((compactDcf .lower "[2000]\nCompactSubObj=20\n[2000Value]\n10=1\n[2000value]\n5=1\n".toList none 8 0).map
          (·.output)
        = .ok "[2000]\nCompactSubObj=5\n[2000Value]\n10=1\n[2000value]\n5=1\n".toList
      ∧ CutOff .lower "[2000]\nCompactSubObj=20\n[2000Value]\n10=1\n[2000value]\n5=1\n".toList
        "[2000]\nCompactSubObj=5\n[2000Value]\n10=1\n[2000value]\n5=1\n".toList "2000".toList 10)
      ∧ ((compactDcf .lower "[2000]\nCompactSubObj=0\n".toList none 8 0).map (·.output)
        = .ok "[2000]\nCompactSubObj=0\n".toList
      ∧ (valuesIn .lower "[2000]\nCompactSubObj=0\n".toList "2000".toList).1 = some 0)
      ∧ ((compactDcf .lower "[1003]\rCompactSubObj=20\r[2000]\r".toList none 8 0).map (·.output)
        = .ok "[1003]\rCompactSubObj=8[2000]\r".toList
      ∧ (valuesIn .lower "[1003]\rCompactSubObj=20\r[2000]\r".toList "1003".toList).1 = some 20
      ∧ (valuesIn .lower "[1003]\rCompactSubObj=8[2000]\r".toList "1003".toList).1 = none) := by
  decide +kernel

end

end LelyRtt.Dcf
