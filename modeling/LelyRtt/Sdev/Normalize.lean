import LelyRtt.Sdev.Defaults
import LelyRtt.Text.Digits
import Mathlib.Data.List.Sort

/-!
This module contains the proof that the repair of compact defaults finds the defaults between the
marker lines of their sub-objects, and changes nothing else.
-/

namespace LelyRtt.Sdev

open Text Dcf

/-- The lines of an object: from its index line to that of the next object. -/
structure ObjectAt (lines : List (List Char)) (index start stop : Nat) : Prop where
  marked : objectIndex (lines.getD start []) = some index
  lt : start < stop
  le : stop ≤ lines.length
  inside : ∀ i, start < i → i < stop → objectIndex (lines.getD i []) = none
  next : stop = lines.length ∨ (objectIndex (lines.getD stop [])).isSome

/-- The lines of a sub-object: from its index line to that of the next one or the end of its object. -/
structure SubAt (lines : List (List Char)) (index subidx start stop : Nat) : Prop where
  marked : subIndex (lines.getD start []) = some subidx
  lt : start < stop
  inside : ∀ i, start < i → i < stop → subIndex (lines.getD i []) = none
  object : ∃ first last, ObjectAt lines index first last ∧ first ≤ start ∧ stop ≤ last
    ∧ (stop = last ∨ (subIndex (lines.getD stop [])).isSome)

/-- The first default of a sub-object, with the type that stands before it. -/
structure DefaultAt (lines : List (List Char)) (index subidx line : Nat) (m : DefaultMatch)
    (type : List Char) : Prop where
  default : matchDefault (lines.getD line []) = some m
  first : ∃ start stop, SubAt lines index subidx start stop ∧ start ≤ line ∧ line < stop
    ∧ (∀ i, start ≤ i → i < line → matchDefault (lines.getD i []) = none)
    ∧ ∃ i, start ≤ i ∧ i ≤ line ∧ typeName (rstripEnd (lines.getD i [])) = some type
      ∧ ∀ j, i < j → j ≤ line → typeName (rstripEnd (lines.getD j [])) = none

/-- The objects of a C text are different. -/
def Distinct (lines : List (List Char)) : Prop :=
  ∀ i j index, objectIndex (lines.getD i []) = some index → objectIndex (lines.getD j []) = some index →
    i = j

/-- The sub-index lines of each object are strictly ascending. -/
def Ascending (lines : List (List Char)) : Prop :=
  ∀ index first last, ObjectAt lines index first last → ∀ i j a b, first ≤ i → i < j → j < last →
    subIndex (lines.getD i []) = some a → subIndex (lines.getD j []) = some b → a < b

/-- The lines are equal up to the values of defaults. -/
structure Edited (lines lines' : List (List Char)) : Prop where
  length : lines'.length = lines.length
  same : ∀ i, SameButValue (lines.getD i []) (lines'.getD i [])

section

variable {lines lines' : List (List Char)} {mark : List Char → Option Nat} {start stop i k : Nat}

theorem getD_of_le (h : lines.length ≤ i) : lines.getD i [] = [] := by
  rw [List.getD_eq_getElem?_getD, List.getElem?_eq_none h]
  rfl

theorem objectIndex_nil : objectIndex [] = none := by decide

theorem lt_of_objectIndex (h : objectIndex (lines.getD i []) = some k) : i < lines.length := by
  by_contra hle
  rw [getD_of_le (by omega), objectIndex_nil] at h
  cases h

theorem mem_marked (h : (k, i) ∈ markedLines mark lines start stop)
    : start ≤ i ∧ i < stop ∧ mark (lines.getD i []) = some k := by
  have hlookup := (mem_dict (nodup_dictOf _)).mp h
  have hitem := mem_of_lookup hlookup
  simp only [List.mem_filterMap, List.mem_range'_1, Option.map_eq_some_iff, Prod.mk.injEq] at hitem
  obtain ⟨i', hrange, k', hmark, rfl, rfl⟩ := hitem
  exact ⟨hrange.1, by omega, hmark⟩

/-- Where the marks of a range are different, the dictionary has all of them. -/
theorem mem_marked_iff
    (hunique : ∀ i j k, start ≤ i → i < stop → start ≤ j → j < stop → mark (lines.getD i []) = some k →
      mark (lines.getD j []) = some k → i = j)
    : (k, i) ∈ markedLines mark lines start stop
      ↔ start ≤ i ∧ i < stop ∧ mark (lines.getD i []) = some k := by
  refine ⟨mem_marked, fun ⟨hstart, hstop, hmark⟩ => ?_⟩
  have hitem : (k, i) ∈ (List.range' start (stop - start)).filterMap
      fun i => (mark (lines.getD i [])).map fun k => (k, i) := by
    rw [List.mem_filterMap]
    exact ⟨i, List.mem_range'_1.mpr ⟨hstart, by omega⟩, by simp only [hmark, Option.map_some]⟩
  cases hlookup : (markedLines mark lines start stop).lookup k with
  | none =>
    rw [markedLines, lookup_dictOf, List.lookup_eq_none_iff] at hlookup
    have hne := hlookup (k, i) (List.mem_reverse.mpr hitem)
    simp at hne
  | some i' =>
    have hmem := (mem_dict (nodup_dictOf _)).mpr hlookup
    obtain ⟨hstart', hstop', hmark'⟩ := mem_marked hmem
    rw [hunique i i' k hstart hstop hstart' hstop' hmark hmark']
    exact hmem

theorem markedLines_congr (h : ∀ i, mark (lines'.getD i []) = mark (lines.getD i []))
    : markedLines mark lines' start stop = markedLines mark lines start stop := by
  simp only [markedLines, h]

theorem Edited.findObjects (h : Edited lines lines') : findObjects lines' = findObjects lines := by
  simp only [Sdev.findObjects, h.length, markedLines_congr fun i => (h.same i).marks.1]

/-- In an ordered list of objects, an object ends where the next one starts. -/
theorem objectEnds_lookup (length : Nat) {index : Nat} {objects : List (Nat × Nat)}
    (hsorted : objects.Pairwise fun x y => x.1 < y.1) (hkeys : (objects.map (·.2)).Nodup)
    (hmem : (start, index) ∈ objects)
    : ∃ stop, (objectEnds length objects).lookup index = some stop
      ∧ (∀ x ∈ objects, start < x.1 → stop ≤ x.1)
      ∧ (stop = length ∧ (∀ x ∈ objects, x.1 ≤ start)
        ∨ start < stop ∧ ∃ index', (stop, index') ∈ objects) := by
  fun_induction objectEnds length objects with
  | case1 => cases hmem
  | case2 line index' =>
    simp only [List.mem_singleton, Prod.mk.injEq] at hmem
    obtain ⟨rfl, rfl⟩ := hmem
    exact ⟨length, by simp, by simp, .inl ⟨rfl, by simp⟩⟩
  | case3 line index₁ line' index' rest ih =>
    rw [List.map_cons, List.nodup_cons] at hkeys
    rw [lookup_cons_eq]
    obtain heq | hlater := List.mem_cons.mp hmem
    . cases heq
      rw [if_pos rfl]
      have hlt := (List.pairwise_cons.mp hsorted).1
      refine ⟨line', rfl, ?_, .inr ⟨hlt (line', index') List.mem_cons_self, index', by simp⟩⟩
      intro x hx hstart
      obtain rfl | hx := List.mem_cons.mp hx
      . exact absurd hstart (Nat.lt_irrefl _)
      . obtain rfl | hx := List.mem_cons.mp hx
        . exact Nat.le_refl _
        . have hrest := (List.pairwise_cons.mp (List.pairwise_cons.mp hsorted).2).1
          exact Nat.le_of_lt (hrest x hx)
    . have hne : index ≠ index₁ := by
        rintro rfl
        exact hkeys.1 (List.mem_map.mpr ⟨_, hlater, rfl⟩)
      rw [if_neg hne]
      obtain ⟨stop, hlookup, hle, hstop⟩ := ih (List.pairwise_cons.mp hsorted).2 hkeys.2 hlater
      have hline : line < start := (List.pairwise_cons.mp hsorted).1 _ hlater
      refine ⟨stop, hlookup, ?_, ?_⟩
      . intro x hx hstart
        obtain rfl | hx := List.mem_cons.mp hx
        . exact absurd hstart (Nat.lt_asymm hline)
        . exact hle x hx hstart
      . refine hstop.imp (fun ⟨heq, hall⟩ => ⟨heq, ?_⟩) (fun ⟨hlt, index', hmem'⟩ =>
          ⟨hlt, index', List.mem_cons_of_mem _ hmem'⟩)
        intro x hx
        obtain rfl | hx := List.mem_cons.mp hx
        . exact Nat.le_of_lt hline
        . exact hall x hx

/-- The objects that the tool finds are those between the index lines. -/
theorem findObjects_spec (hdistinct : Distinct lines) {index : Nat}
    (hstart : (findObjects lines).starts.lookup index = some start)
    : ∃ stop, (findObjects lines).ends.lookup index = some stop ∧ ObjectAt lines index start stop := by
  have hunique : ∀ i j k, 0 ≤ i → i < lines.length → 0 ≤ j → j < lines.length →
      objectIndex (lines.getD i []) = some k → objectIndex (lines.getD j []) = some k → i = j :=
    fun i j k _ _ _ _ hi hj => hdistinct i j k hi hj
  have hnodup := nodup_dictOf ((List.range' 0 (lines.length - 0)).filterMap
    fun i => (objectIndex (lines.getD i [])).map fun k => (k, i))
  change ((findObjects lines).starts.map (·.1)).Nodup at hnodup
  have hmarked {k i : Nat} : (k, i) ∈ (findObjects lines).starts
      ↔ objectIndex (lines.getD i []) = some k := by
    refine (mem_marked_iff hunique).trans ⟨fun h => h.2.2, fun h => ⟨Nat.zero_le _, lt_of_objectIndex h, h⟩⟩
  have hmem := (mem_dict hnodup).mpr hstart
  obtain ⟨objects, hobjects⟩ : ∃ objects, objects
      = ((findObjects lines).starts.map fun entry => (entry.2, entry.1)).mergeSort pairLe := ⟨_, rfl⟩
  have hends : (findObjects lines).ends = objectEnds lines.length objects := by rw [hobjects]; rfl
  have hperm : objects.Perm ((findObjects lines).starts.map fun entry => (entry.2, entry.1)) := by
    rw [hobjects]
    exact List.mergeSort_perm _ _
  have hmem' {i k : Nat} : (i, k) ∈ objects ↔ objectIndex (lines.getD i []) = some k := by
    rw [hperm.mem_iff, ← hmarked]
    simp
  have hkeys : (objects.map (·.2)).Nodup := by
    have hperm' := hperm.map (·.2)
    rw [List.map_map] at hperm'
    exact hperm'.nodup_iff.mpr hnodup
  have hsorted : objects.Pairwise fun x y => x.1 < y.1 := by
    have hle : objects.Pairwise fun x y => pairLe x y = true := by
      rw [hobjects]
      apply List.pairwise_mergeSort
      . intro x y z
        simp only [pairLe, Bool.or_eq_true, Bool.and_eq_true, decide_eq_true_eq]
        omega
      . intro x y
        simp only [pairLe, Bool.or_eq_true, Bool.and_eq_true, decide_eq_true_eq]
        omega
    have hne : objects.Pairwise fun x y => x.2 ≠ y.2 := List.pairwise_map.mp hkeys
    refine (List.Pairwise.and_mem.mp (hle.and hne)).imp ?_
    rintro ⟨i, a⟩ ⟨j, b⟩ ⟨hi, hj, hle, hne⟩
    simp only [pairLe, Bool.or_eq_true, Bool.and_eq_true, decide_eq_true_eq] at hle hne ⊢
    obtain hlt | ⟨heq, _⟩ := hle
    . exact hlt
    . subst heq
      exact absurd (Option.some_inj.mp ((hmem'.mp hi).symm.trans (hmem'.mp hj))) hne
  obtain ⟨stop, hlookup, hle, hstop⟩ := objectEnds_lookup lines.length hsorted hkeys
    (hmem'.mpr (hmarked.mp hmem))
  refine ⟨stop, hends ▸ hlookup, hmarked.mp hmem, ?_, ?_, ?_, ?_⟩
  . obtain ⟨rfl, _⟩ | ⟨hlt, _⟩ := hstop
    . exact lt_of_objectIndex (hmarked.mp hmem)
    . exact hlt
  . obtain ⟨rfl, _⟩ | ⟨_, index', hmem⟩ := hstop
    . exact Nat.le_refl _
    . exact Nat.le_of_lt (lt_of_objectIndex (hmem'.mp hmem))
  . intro i hlt hi
    cases hmark : objectIndex (lines.getD i []) with
    | none => rfl
    | some k => exact absurd (hle (i, k) (hmem'.mpr hmark) hlt) (by simp; omega)
  . obtain ⟨rfl, _⟩ | ⟨_, index', hmem⟩ := hstop
    . exact .inl rfl
    . exact .inr (by rw [hmem'.mp hmem]; rfl)

/-- The sub-object that the tool finds is that between the sub-index lines. -/
theorem subRange_spec (hascending : Ascending lines) {index subidx first last : Nat}
    (hobject : ObjectAt lines index first last)
    (h : subRange (markedLines subIndex lines first last) last subidx = some (start, stop))
    : SubAt lines index subidx start stop := by
  have hunique : ∀ i j k, first ≤ i → i < last → first ≤ j → j < last →
      subIndex (lines.getD i []) = some k → subIndex (lines.getD j []) = some k → i = j := by
    intro i j k hi hi' hj hj' hmark hmark'
    by_contra hne
    obtain hlt | hlt := Nat.lt_or_gt_of_ne hne
    . exact Nat.lt_irrefl k (hascending index first last hobject i j k k hi hlt hj' hmark hmark')
    . exact Nat.lt_irrefl k (hascending index first last hobject j i k k hj hlt hi' hmark' hmark)
  have hmarked {k i : Nat} : (k, i) ∈ markedLines subIndex lines first last
      ↔ first ≤ i ∧ i < last ∧ subIndex (lines.getD i []) = some k := mem_marked_iff hunique
  obtain ⟨start', hlookup, hrange⟩ := Option.map_eq_some_iff.mp h
  obtain ⟨rfl, hstop⟩ := Prod.mk.inj hrange
  obtain ⟨hfirst, hlast, hmark⟩ := hmarked.mp ((mem_dict (nodup_dictOf _)).mpr hlookup)
  have hlater {i : Nat} : i ∈ ((markedLines subIndex lines first last).filter fun entry =>
      entry.1 > subidx).map (·.2) ↔ start' < i ∧ i < last ∧ (subIndex (lines.getD i [])).isSome := by
    simp only [List.mem_map, List.mem_filter, Prod.exists, exists_eq_right, decide_eq_true_eq]
    constructor
    . rintro ⟨k, hmem, hk⟩
      obtain ⟨hfirst', hlast', hmark'⟩ := hmarked.mp hmem
      refine ⟨?_, hlast', by rw [hmark']; rfl⟩
      by_contra hle
      obtain hlt | heq := Nat.lt_or_eq_of_le (Nat.le_of_not_lt hle)
      . have hless := hascending index first last hobject i start' k subidx hfirst' hlt hlast hmark' hmark
        omega
      . subst heq
        have hsame := Option.some_inj.mp (hmark.symm.trans hmark')
        omega
    . rintro ⟨hlt, hlast', hsome⟩
      obtain ⟨k, hmark'⟩ := Option.isSome_iff_exists.mp hsome
      exact ⟨k, hmarked.mpr ⟨by omega, hlast', hmark'⟩,
        hascending index first last hobject start' i subidx k hfirst hlt hlast' hmark hmark'⟩
  generalize ((markedLines subIndex lines first last).filter fun entry =>
    entry.1 > subidx).map (·.2) = later at hlater hstop
  cases hmin : later.min? with
  | none =>
    rw [hmin] at hstop
    obtain rfl : last = stop := hstop
    have hnil := List.min?_eq_none_iff.mp hmin
    subst hnil
    refine ⟨hmark, hlast, ?_, first, last, hobject, hfirst, Nat.le_refl _, .inl rfl⟩
    intro i hi hi'
    by_contra hsome
    have hmem := hlater.mpr ⟨hi, hi', Option.isSome_iff_ne_none.mpr hsome⟩
    cases hmem
  | some i =>
    rw [hmin] at hstop
    obtain rfl : i = stop := hstop
    obtain ⟨hmem, hall⟩ := List.min?_eq_some_iff.mp hmin
    obtain ⟨hlt, hlt', hsome⟩ := hlater.mp hmem
    refine ⟨hmark, hlt, ?_, first, last, hobject, hfirst, Nat.le_of_lt hlt', .inr hsome⟩
    intro j hj hj'
    by_contra hmark'
    have hle := hall j (hlater.mpr ⟨hj, Nat.lt_trans hj' hlt', Option.isSome_iff_ne_none.mpr hmark'⟩)
    omega

/-- What the search for a default finds. -/
theorem scanDefault_spec {n : Nat} {type₀ type : Option (List Char)} {line : Nat} {m : DefaultMatch}
    (h : scanDefault lines (List.range' start n) type₀ = (type, some (line, m)))
    : start ≤ line ∧ line < start + n ∧ matchDefault (lines.getD line []) = some m
      ∧ (∀ i, start ≤ i → i < line → matchDefault (lines.getD i []) = none)
      ∧ ((∃ i, start ≤ i ∧ i ≤ line ∧ typeName (rstripEnd (lines.getD i [])) = type ∧ type.isSome
          ∧ ∀ j, i < j → j ≤ line → typeName (rstripEnd (lines.getD j [])) = none)
        ∨ type = type₀ ∧ ∀ j, start ≤ j → j ≤ line → typeName (rstripEnd (lines.getD j [])) = none) := by
  induction n generalizing start type₀ with
  | zero => cases h
  | succ n ih =>
    rw [List.range'_succ, scanDefault] at h
    cases hm : matchDefault (lines.getD start []) with
    | some m' =>
      rw [hm] at h
      simp only [Prod.mk.injEq, Option.some_inj] at h
      obtain ⟨htype, rfl, rfl⟩ := h
      refine ⟨Nat.le_refl _, by omega, hm, fun i hi hi' => absurd hi' (by omega), ?_⟩
      cases hname : typeName (rstripEnd (lines.getD start [])) with
      | some name =>
        rw [hname] at htype
        exact .inl ⟨start, Nat.le_refl _, Nat.le_refl _, by rw [hname, ← htype]; rfl, by rw [← htype]; rfl,
          fun j hj hj' => absurd hj' (by omega)⟩
      | none =>
        rw [hname] at htype
        refine .inr ⟨htype.symm, fun j hj hj' => ?_⟩
        rw [Nat.le_antisymm hj' hj, hname]
    | none =>
      rw [hm] at h
      obtain ⟨hle, hlt, hfound, hfirst, htypes⟩ := ih h
      refine ⟨by omega, by omega, hfound, ?_, ?_⟩
      . intro i hi hi'
        obtain rfl | hi := Nat.eq_or_lt_of_le hi
        . exact hm
        . exact hfirst i hi hi'
      . obtain ⟨i, hi, hi', hname, hsome, hlater⟩ | ⟨htype, hnone⟩ := htypes
        . exact .inl ⟨i, by omega, hi', hname, hsome, hlater⟩
        . cases hname : typeName (rstripEnd (lines.getD start [])) with
          | some name =>
            rw [hname] at htype
            refine .inl ⟨start, Nat.le_refl _, by omega, by rw [hname, htype]; rfl, by rw [htype]; rfl, ?_⟩
            exact fun j hj hj' => hnone j hj hj'
          | none =>
            rw [hname] at htype
            refine .inr ⟨htype, fun j hj hj' => ?_⟩
            obtain rfl | hj := Nat.eq_or_lt_of_le hj
            . exact hname
            . exact hnone j hj hj'

/-- The search finds the same in lines that are equal up to the values of defaults. -/
theorem scanDefault_edited (h : Edited lines lines') (is : List Nat) (type : Option (List Char))
    : (scanDefault lines' is type).1 = (scanDefault lines is type).1
      ∧ (scanDefault lines' is type).2 = (scanDefault lines is type).2.bind fun found =>
        (matchDefault (lines'.getD found.1 [])).map fun m => (found.1, m) := by
  induction is generalizing type with
  | nil => exact ⟨rfl, rfl⟩
  | cons i is ih =>
    have hsame := h.same i
    rw [scanDefault, scanDefault]
    simp only [hsame.marks.2.2]
    cases hm : matchDefault (lines.getD i []) with
    | none =>
      rw [hsame.matchDefault_none hm, hm]
      exact ih _
    | some m =>
      obtain ⟨value, hm', _⟩ := hsame.matchDefault_some hm
      simp only [hm', Option.bind_some, Option.map_some, and_self]

end

/-! ### Literals -/

/-- The value of a hexadecimal literal of C with its suffix. -/
def literalValue : List Char → Option Nat
  | '0' :: 'x' :: rest =>
    let digits := rest.takeWhile isHex
    if digits ≠ [] ∧ (rest.dropWhile isHex).all fun c => c = 'u' ∨ c = 'U' ∨ c = 'l' ∨ c = 'L' then
      some (natOfDigits 16 digits)
    else
      none
  | _ => none

/-- The digit of `d` in upper case. -/
theorem upperDigit {d : Nat} (h : d < 16)
    : hexDigit d.digitChar.toUpper = some d ∧ isHex d.digitChar.toUpper = true
      ∧ isWord d.digitChar.toUpper = true := by
  have hall : ∀ d : Fin 16, hexDigit d.1.digitChar.toUpper = some d.1
      ∧ isHex d.1.digitChar.toUpper = true ∧ isWord d.1.digitChar.toUpper = true := by decide
  exact hall ⟨d, h⟩

/-- The digits of a number in upper case denote it. -/
theorem upperDigits_spec (n : Nat)
    : natOfDigits 16 ((Nat.toDigits 16 n).map Char.toUpper) = n
      ∧ (Nat.toDigits 16 n).map Char.toUpper ≠ []
      ∧ ∀ c ∈ (Nat.toDigits 16 n).map Char.toUpper, isHex c = true ∧ isWord c = true := by
  obtain ⟨hvalue, hne, hall⟩ := toDigits_spec (by decide) (fun d hd => (upperDigit hd).1) n
  refine ⟨hvalue, hne, fun c hc => ?_⟩
  obtain ⟨d, hd, rfl⟩ := hall c hc
  exact (upperDigit hd).2

/-- The suffixes of the types. -/
theorem typeInfo_suffix {dataType : Nat} {info : TypeInfo} (h : typeInfo dataType = some info)
    : info.suffix = [] ∨ info.suffix = ['l', 'u'] := by
  unfold typeInfo at h
  split at h
  . cases h
    exact .inl rfl
  . split at h
    . cases h
      exact .inl rfl
    . split at h
      . cases h
        exact .inr rfl
      . cases h

theorem formatLiteral_spec {dataType : Nat} {info : TypeInfo} (h : typeInfo dataType = some info)
    (value : Nat) : literalValue (formatLiteral info value) = some value
      ∧ formatLiteral info value ≠ [] ∧ ∀ c ∈ formatLiteral info value, isWord c = true := by
  obtain ⟨hvalue, hne, hall⟩ := upperDigits_spec value
  obtain ⟨digits, hdigits⟩ : ∃ digits, digits
      = ((Nat.toDigits 16 value).map Char.toUpper).leftpad info.width '0' := ⟨_, rfl⟩
  have hvalue' : natOfDigits 16 digits = value := by rw [hdigits, List.leftpad, natOfDigits_zeros, hvalue]
  have hall' : ∀ c ∈ digits, isHex c = true ∧ isWord c = true := by
    intro c hc
    rw [hdigits, List.leftpad] at hc
    obtain hc | hc := List.mem_append.mp hc
    . rw [List.eq_of_mem_replicate hc]
      decide
    . exact hall c hc
  have hne' : digits ≠ [] := by
    rw [hdigits, List.leftpad]
    simp
  have hformat : formatLiteral info value = '0' :: 'x' :: (digits ++ info.suffix) := by
    rw [formatLiteral, ← hdigits]
    rfl
  rw [hformat]
  have hhex : ∀ c ∈ digits, isHex c = true := fun c hc => (hall' c hc).1
  obtain hsuffix | hsuffix := typeInfo_suffix h
  . rw [hsuffix, List.append_nil]
    refine ⟨?_, by simp, ?_⟩
    . have htake : digits.takeWhile isHex = digits := List.takeWhile_eq_self_iff.mpr hhex
      have hdrop : digits.dropWhile isHex = [] := List.dropWhile_eq_nil_iff.mpr hhex
      simp [literalValue, htake, hdrop, hne', hvalue']
    . intro c hc
      simp only [List.mem_cons] at hc
      obtain rfl | rfl | hc := hc
      . decide
      . decide
      . exact (hall' c hc).2
  . rw [hsuffix]
    refine ⟨?_, by simp, ?_⟩
    . have htake : (digits ++ ['l', 'u']).takeWhile isHex = digits := by
        rw [List.takeWhile_append_of_pos hhex]
        exact List.append_nil digits
      have hdrop : (digits ++ ['l', 'u']).dropWhile isHex = ['l', 'u'] :=
        List.dropWhile_append_of_pos hhex
      simp [literalValue, htake, hdrop, hne', hvalue']
    . intro c hc
      simp only [List.mem_cons, List.mem_append, List.not_mem_nil, or_false] at hc
      obtain rfl | rfl | hc | rfl | rfl := hc
      . decide
      . decide
      . exact (hall' c hc).2
      . decide
      . decide

/-- A word stands alone between blanks. -/
theorem solid_of_word {s : List Char} (hne : s ≠ []) (hword : ∀ c ∈ s, isWord c = true) : Solid s := by
  have hspace : ∀ c ∈ s, isSpace c = false := by
    intro c hc
    by_contra h
    have hnot := isWord_of_isSpace (by simpa using h)
    rw [hword c hc] at hnot
    cases hnot
  refine ⟨hne, fun c hc => hspace c (List.mem_of_mem_head? hc), fun c hc => hspace c (List.mem_of_mem_getLast? hc), ?_⟩
  intro c hc
  by_contra h
  have hboundary := isSpace_of_isBoundary (by simpa using h : isBoundary c = true)
  rw [hspace c hc] at hboundary
  cases hboundary

end LelyRtt.Sdev
