import LelyRtt.Dcf.Ranges

/-!
This module contains the compaction as a whole: the lines that it edits, and that it changes nothing the
second time.
-/

namespace LelyRtt.Dcf

open Text

/-! ### Sections with other values -/

/-- The section `body'` is `body` with other values for some keys, which `P` relates to the old ones. -/
structure Edited (cf : CaseFold) (P : List Char → List Char → List Char → Prop) (body body' : List (List Char))
    : Prop where
  length : body'.length = body.length
  line : ∀ i line line', body[i]? = some line → body'[i]? = some line' → line' = line ∨
    ∃ kv value, 0 < i ∧ matchKeyValue line = some kv ∧ Written value ∧ line' = kv.head ++ (value ++ kv.stop)
      ∧ P (cf.casefold kv.key) (strip kv.value) value

section

variable {cf : CaseFold} {P Q : List Char → List Char → List Char → Prop} {body body' body'' : List (List Char)}
  {j : Nat} {kv : KeyValue} {value : List Char}

theorem Edited.refl (body : List (List Char)) : Edited cf P body body := by
  refine ⟨rfl, fun i line line' hline hline' => .inl ?_⟩
  rw [hline] at hline'
  exact (Option.some_inj.mp hline').symm

theorem Edited.mono (h : Edited cf P body body') (hPQ : ∀ k v v', P k v v' → Q k v v') : Edited cf Q body body' := by
  refine ⟨h.length, fun i line line' hline hline' => (h.line i line line' hline hline').imp id ?_⟩
  rintro ⟨kv, value, hi, hmatch, hvalue, heq, hP⟩
  exact ⟨kv, value, hi, hmatch, hvalue, heq, hPQ _ _ _ hP⟩

theorem Rewrite.edited (h : Rewrite body j kv value) (hP : P (cf.casefold kv.key) (strip kv.value) value)
    : Edited cf P body (rewrite body j kv value) := by
  refine ⟨length_rewrite, fun i line line' hline hline' => ?_⟩
  obtain ⟨line₀, hline₀, hmatch⟩ := h.line
  by_cases hi : j = i
  . subst hi
    obtain rfl := Option.some_inj.mp (hline₀.symm.trans hline)
    rw [rewrite, List.getElem?_set_self (List.getElem?_eq_some_iff.mp hline).1] at hline'
    exact .inr ⟨kv, value, h.pos, hmatch, h.value, (Option.some_inj.mp hline').symm, hP⟩
  . rw [rewrite, List.getElem?_set_ne hi, hline] at hline'
    exact .inl (Option.some_inj.mp hline').symm

/-- Values of different keys are replaced one after the other. -/
theorem Edited.trans (h : Edited cf P body body') (h' : Edited cf Q body' body'')
    (hkeys : ∀ k v v' w w', P k v v' → ¬Q k w w') : Edited cf (fun k v v' => P k v v' ∨ Q k v v') body body'' := by
  refine ⟨h'.length.trans h.length, fun i line line'' hline hline'' => ?_⟩
  obtain ⟨line', hline'⟩ : ∃ line', body'[i]? = some line' := by
    have hlt := (List.getElem?_eq_some_iff.mp hline).1
    exact ⟨_, List.getElem?_eq_getElem (h.length ▸ hlt)⟩
  obtain rfl | ⟨kv, value, hi, hmatch, hvalue, rfl, hP⟩ := h.line i line line' hline hline'
  . refine (h'.line i line' line'' hline' hline'').imp id ?_
    rintro ⟨kv, value, hi, hmatch, hvalue, heq, hQ⟩
    exact ⟨kv, value, hi, hmatch, hvalue, heq, .inr hQ⟩
  . refine .inr ⟨kv, value, hi, hmatch, hvalue, ?_, .inl hP⟩
    -- the key of the line is kept, so that `Q` does not touch it
    obtain heq | ⟨kv', value', _, hmatch', _, _, hQ⟩ := h'.line i _ line'' hline' hline''
    . exact heq
    . rw [matchKeyValue_eq_some.mpr ((matchKeyValue_eq_some.mp hmatch).replace hvalue)] at hmatch'
      cases hmatch'
      exact absurd hQ (hkeys _ _ _ _ _ hP)

end

/-! ### The contract of the Master -/

/-- The data type that `normalize_master_object_contracts` looks at. -/
def contractOf (cf : CaseFold) (traits : List Traits) : Option (Option Nat) :=
  (dictOf (traits.map fun t => (cf.casefold t.name, t.dataType))).lookup "1f25".toList

/-- The section has no data type, or that of the contract. -/
def Contracted (cf : CaseFold) (traits : List Traits) : Prop :=
  contractOf cf traits = none ∨ contractOf cf traits = some (some 7)

/-- The section whose data type is replaced. -/
inductive Normalized (cf : CaseFold) : List (List Char) → List (List Char) → Prop
  | keep (body : List (List Char)) : Normalized cf body body
  | retype {body : List (List Char)} {v : List Char} {j : Nat} {kv : KeyValue} :
      cf.casefold (nameOf body) = "1f25".toList → (bodyValues cf body).lookup "datatype".toList = some (v, j) →
      parseInt v = some 5 → Rewrite body j kv "0x0007".toList →
      Normalized cf body (rewrite body j kv "0x0007".toList)

section

variable {cf : CaseFold} {text out : List Char} {before : List (List Char)} {bodies : List (List (List Char))}
  {body body' : List (List Char)}

theorem written_dataType : Written "0x0007".toList := by
  refine ⟨by decide, ?_⟩
  decide

theorem Normalized.evolved (h : Normalized cf body body')
    : body'.length = body.length ∧ Text.key sectionMark body' = Text.key sectionMark body := by
  cases h with
  | keep => exact ⟨rfl, rfl⟩
  | retype _ _ _ hrewrite => exact ⟨length_rewrite, hrewrite.key⟩

theorem contractOf_chunked {lines : List (List Char)} (h : Chunked sectionMark lines before bodies)
    : contractOf cf (bodies.map (traits cf))
      = ((byName cf lines).lookup "1f25".toList).map fun s => parseValue (sectionValues cf lines s) "datatype".toList := by
  rw [contractOf, List.map_map]
  refine (byName_map h _ _ (fun front body back hlines hbody => ?_) _).symm
  exact parseValue_chunked h hlines hbody _

/-- A text that keeps the contract is kept. -/
theorem normalizeMasterObjectContracts_contracted (hchunked : Chunked sectionMark (splitLines text) before bodies)
    (h : Contracted cf (bodies.map (traits cf))) : normalizeMasterObjectContracts cf text = .ok text := by
  rw [Contracted, contractOf_chunked hchunked] at h
  unfold normalizeMasterObjectContracts
  dsimp only
  cases hs : (byName cf (splitLines text)).lookup "1f25".toList with
  | none => rfl
  | some s =>
    rw [hs] at h
    simp only [Option.map_some, reduceCtorEq, Option.some_inj, false_or] at h
    obtain ⟨⟨value, i⟩, hvalue, hparse⟩ := Option.bind_eq_some_iff.mp h
    have hparse : parseInt value = some 7 := hparse
    simp only [hvalue, hparse, if_true]

/-- What `normalize_master_object_contracts` makes of a text. -/
theorem normalizeMasterObjectContracts_ok (hended : EndedLines (splitLines text))
    (hchunked : Chunked sectionMark (splitLines text) before bodies)
    (h : normalizeMasterObjectContracts cf text = .ok out)
    : ∃ bodies', List.Forall₂ (Normalized cf) bodies bodies' ∧ Chunked sectionMark (splitLines out) before bodies'
      ∧ EndedLines (splitLines out) ∧ Contracted cf (bodies'.map (traits cf)) := by
  have hkeep (hcontract : Contracted cf (bodies.map (traits cf))) : ∃ bodies', List.Forall₂ (Normalized cf) bodies bodies'
      ∧ Chunked sectionMark (splitLines text) before bodies' ∧ EndedLines (splitLines text)
      ∧ Contracted cf (bodies'.map (traits cf)) :=
    ⟨bodies, List.forall₂_same.mpr fun _ _ => .keep _, hchunked, hended, hcontract⟩
  unfold normalizeMasterObjectContracts at h
  dsimp only at h
  cases hs : (byName cf (splitLines text)).lookup "1f25".toList with
  | none =>
    rw [hs] at h
    cases h
    refine hkeep (.inl ?_)
    rw [contractOf_chunked hchunked, hs]
    rfl
  | some s =>
    rw [hs] at h
    simp only at h
    obtain ⟨hmem, hname⟩ := mem_byName hs
    rw [collectSections_chunked hchunked] at hmem
    obtain ⟨k, hk⟩ := List.mem_iff_getElem?.mp hmem
    obtain ⟨body, front, back, hbody, hsection, _, hlines, hset⟩ := section_split hk
    have hchunk : Chunk sectionMark body := hchunked.chunk body (List.mem_of_getElem? hbody)
    have hlines' : splitLines text = front ++ (body ++ back) := hchunked.list.trans hlines
    have hvalues (k : List Char) : (sectionValues cf (splitLines text) s).lookup k
        = ((bodyValues cf body).lookup k).map fun p => (p.1, front.length + p.2) := by
      rw [hlines', hsection, sectionValues_body _ hchunk.ne_nil]
    rw [hvalues] at h
    cases hv : (bodyValues cf body).lookup "datatype".toList with
    | none =>
      rw [hv] at h
      cases h
    | some found =>
      obtain ⟨v, j⟩ := found
      rw [hv] at h
      simp only [Option.map_some] at h
      split at h
      next hseven =>
        cases h
        refine hkeep (.inr ?_)
        rw [contractOf_chunked hchunked, hs, Option.map_some, parseValue, hvalues, hv]
        exact congrArg some hseven
      next =>
        split at h
        next hfive =>
          obtain ⟨kv, hrewrite, _, _, hreplace, hwritten⟩ := rewrite_line front back hv
            written_dataType
          rw [hlines', hreplace] at h
          simp only [bind, Except.bind, hwritten] at h
          cases h
          rw [← hset]
          have hnormalized : List.Forall₂ (Normalized cf) bodies (bodies.set k (rewrite body j kv "0x0007".toList)) := by
            refine List.forall₂_of_length_eq_of_get List.length_set.symm fun i hi hi' => ?_
            rw [List.get_eq_getElem, List.get_eq_getElem, List.getElem_set]
            split
            next heq =>
              subst heq
              rw [List.getElem?_eq_getElem hi, Option.some_inj] at hbody
              rw [hbody]
              refine .retype ?_ hv hfive hrewrite
              rw [← hname, hsection]
            next => exact .keep _
          have hlist := hchunked.list
          rw [hlist] at hended
          have hended' : EndedLines (before ++ (bodies.set k (rewrite body j kv "0x0007".toList)).flatten) := by
            rw [hset]
            rw [hlines] at hended
            refine hended.edit (List.rel_append (List.forall₂_same.mpr fun _ _ => .refl _)
              (List.rel_append ?_ (List.forall₂_same.mpr fun _ _ => .refl _)))
            refine hrewrite.sameEnd hended (fun l hl => ?_) ((hrewrite.value_eq hv).1 ▸ hfive)
            exact List.mem_append_right _ (List.mem_append_left _ hl)
          have hchunked' : Chunked sectionMark (before ++ (bodies.set k (rewrite body j kv "0x0007".toList)).flatten)
              before (bodies.set k (rewrite body j kv "0x0007".toList)) :=
            hchunked.set (hrewrite.chunk hchunk)
          rw [splitLines_flatten (lines_of_ended hended')]
          refine ⟨_, hnormalized, hchunked', hended', .inr ?_⟩
          -- the sections are the same as before, and so is the one of the contract
          have hevolved : Evolved bodies (bodies.set k (rewrite body j kv "0x0007".toList)) :=
            hnormalized.imp fun _ _ hbody => hbody.evolved
          have hsections : byName cf (before ++ (bodies.set k (rewrite body j kv "0x0007".toList)).flatten)
              = byName cf (splitLines text) := by
            rw [byName, byName, collectSections_chunked hchunked', collectSections_chunked hchunked,
              hevolved.chunkSections]
          have hlength : (rewrite body j kv "0x0007".toList).length = body.length := length_rewrite
          rw [contractOf_chunked hchunked', hsections, hs, Option.map_some, hset, hsection, parseValue,
            ← hlength, sectionValues_body _ (hrewrite.chunk hchunk).ne_nil, hrewrite.bodyValues, hv]
          have hseven : parseInt "0x0007".toList = some 7 := by decide
          simp only [Option.map_some, if_true, Option.bind_some, hseven]
        next => cases h

end

/-! ### The whole compaction -/

/-- The name of the communication object of a TPDO. -/
def TpdoName (cf : CaseFold) (name : List Char) : Prop :=
  ∃ object, isObject object = true ∧ 0x1800 ≤ natOfDigits 16 object ∧ natOfDigits 16 object ≤ 0x19ff
    ∧ cf.casefold name = cf.casefold object

/-- The values that are replaced in the section `name` whose object loses `lowered` sub-indexes, with their keys. -/
inductive Replaced (cf : CaseFold) (name : List Char) (lowered : Nat) : List Char → List Char → List Char → Prop
  | range {value : List Char} {n m : Nat} : isObject name = true → parseInt value = some n → m < n →
      Replaced cf name lowered "compactsubobj".toList value (decimal m)
  | subNumber {value : List Char} {n : Nat} : TpdoName cf name → 0 < lowered → parseInt value = some n →
      lowered ≤ n → Replaced cf name lowered "subnumber".toList value (decimal (n - lowered))
  | dataType {value : List Char} : cf.casefold name = "1f25".toList → parseInt value = some 5 →
      Replaced cf name lowered "datatype".toList value "0x0007".toList

/-- What the compaction makes of a section whose object loses `lowered` sub-indexes. -/
structure Compacted (cf : CaseFold) (lowered : Nat) (body body' : List (List Char)) : Prop where
  edited : Edited cf (Replaced cf (nameOf body) lowered) body body'
  lowered : 0 < lowered → ∃ v j n, (bodyValues cf body).lookup "subnumber".toList = some (v, j)
    ∧ parseInt v = some n ∧ lowered ≤ n
    ∧ (bodyValues cf body').lookup "subnumber".toList = some (decimal (n - lowered), j)

section

variable {cf : CaseFold} {text out : List Char} {before lines : List (List Char)}
  {bodies : List (List (List Char))} {body body₁ body₂ body₃ : List (List Char)} {r depth maxNodeId limit : Nat}
  {keys : List (List Char × List Nat)} {s : Section} {result : CompactResult}

theorem reservedObject_range {name object : List Char} (h : reservedObject name = some object)
    : isObject object = true ∧ 0x1800 ≤ natOfDigits 16 object ∧ natOfDigits 16 object ≤ 0x19ff := by
  obtain ⟨object', hreserved, hrange⟩ := Option.bind_eq_some_iff.mp h
  dsimp only at hrange
  split at hrange
  next => cases hrange
  next hin =>
    cases hrange
    refine ⟨?_, by omega, by omega⟩
    unfold reservedSub4 at hreserved
    dsimp only at hreserved
    split at hreserved
    next => cases hreserved
    next hobject =>
      split at hreserved
      next =>
        split at hreserved
        next =>
          cases hreserved
          simpa using hobject
        next => cases hreserved
      next => cases hreserved

/-- A section that loses a sub-index is that of a TPDO. -/
theorem tpdoName_of_removedFrom {sections : List Section} (h : 0 < removedFrom cf (byName cf lines) sections s)
    : TpdoName cf s.name := by
  obtain ⟨t, _, ht⟩ := List.countP_pos_iff.mp h
  obtain ⟨object, hreserved, hparent⟩ := Option.bind_eq_some_iff.mp (of_decide_eq_true ht)
  obtain ⟨hobject, hlow, hhigh⟩ := reservedObject_range hreserved
  exact ⟨object, hobject, hlow, hhigh, (mem_byName hparent).2⟩

theorem Normalized.edited (h : Normalized cf body body₁)
    : Edited cf (fun k v v' => k = "datatype".toList ∧ Replaced cf (nameOf body) r k v v') body body₁ := by
  cases h with
  | keep => exact .refl _
  | retype hname hv hn hrewrite =>
    obtain ⟨hvalue, hkey⟩ := hrewrite.value_eq hv
    refine hrewrite.edited ⟨hkey, ?_⟩
    rw [hkey]
    exact .dataType hname (hvalue ▸ hn)

theorem Lowered.edited (h : Lowered cf r body body₁) (htpdo : 0 < r → TpdoName cf (nameOf body))
    : Edited cf (fun k v v' => k = "subnumber".toList ∧ Replaced cf (nameOf body) r k v v') body body₁ := by
  cases h with
  | keep => exact .refl _
  | lower hv hn hpos hle hrewrite =>
    obtain ⟨hvalue, hkey⟩ := hrewrite.value_eq hv
    refine hrewrite.edited ⟨hkey, ?_⟩
    rw [hkey]
    exact .subNumber (htpdo hpos) hpos (hvalue ▸ hn) hle

theorem Ranged.edited (h : Ranged cf depth maxNodeId keys body body₁)
    : Edited cf (fun k v v' => k = "compactsubobj".toList ∧ Replaced cf (nameOf body) r k v v') body body₁ := by
  cases h with
  | keep => exact .refl _
  | lower hobject hv hn _ hless hrewrite =>
    obtain ⟨hvalue, hkey⟩ := hrewrite.value_eq hv
    refine hrewrite.edited ⟨hkey, ?_⟩
    rw [hkey]
    exact .range hobject (hvalue ▸ hn) hless

theorem Normalized.lookup_ne {k : List Char} (h : Normalized cf body body₁) (hne : k ≠ "datatype".toList)
    : (bodyValues cf body₁).lookup k = (bodyValues cf body).lookup k := by
  cases h with
  | keep => rfl
  | retype _ hv _ hrewrite => exact hrewrite.lookup_ne hv hne

theorem Ranged.lookup_ne {k : List Char} (h : Ranged cf depth maxNodeId keys body body₁)
    (hne : k ≠ "compactsubobj".toList) : (bodyValues cf body₁).lookup k = (bodyValues cf body).lookup k := by
  cases h with
  | keep => rfl
  | lower _ hv _ _ _ hrewrite => exact hrewrite.lookup_ne hv hne

/-- The three passes over a section. -/
theorem compacted_of_passes (hnormalized : Normalized cf body body₁) (hlowered : Lowered cf r body₁ body₂)
    (hranged : body₃ = body₂ ∨ Ranged cf depth maxNodeId keys body₂ body₃)
    (htpdo : 0 < r → TpdoName cf (nameOf body)) : Compacted cf r body body₃ := by
  have hname₁ : nameOf body₁ = nameOf body := by rw [nameOf, hnormalized.evolved.2, nameOf]
  have hname₂ : nameOf body₂ = nameOf body := by rw [nameOf, hlowered.evolved.2, ← nameOf, hname₁]
  have hedit₁ := hnormalized.edited (r := r)
  have hedit₂ := hlowered.edited fun hpos => hname₁ ▸ htpdo hpos
  rw [hname₁] at hedit₂
  have hedit₃ : Edited cf (fun k v v' => k = "compactsubobj".toList ∧ Replaced cf (nameOf body) r k v v') body₂ body₃ := by
    obtain rfl | hranged := hranged
    . exact .refl _
    . rw [← hname₂]
      exact hranged.edited
  have hlookup₃ : (bodyValues cf body₃).lookup "subnumber".toList = (bodyValues cf body₂).lookup "subnumber".toList := by
    obtain rfl | hranged := hranged
    . rfl
    . exact hranged.lookup_ne (by decide)
  refine ⟨?_, fun hpos => ?_⟩
  . refine ((hedit₁.trans hedit₂ ?_).trans hedit₃ ?_).mono ?_
    . rintro k v v' w w' ⟨rfl, _⟩ ⟨hkey, _⟩
      exact absurd hkey (by decide)
    . rintro k v v' w w' (⟨rfl, _⟩ | ⟨rfl, _⟩) ⟨hkey, _⟩
      . exact absurd hkey (by decide)
      . exact absurd hkey (by decide)
    . rintro k v v' ((⟨_, h⟩ | ⟨_, h⟩) | ⟨_, h⟩) <;> exact h
  . cases hlowered with
    | keep => exact absurd hpos (Nat.lt_irrefl 0)
    | lower hv hn _ hle hrewrite =>
      rw [← hnormalized.lookup_ne (k := "subnumber".toList) (by decide), hlookup₃, hrewrite.bodyValues, hv]
      exact ⟨_, _, _, rfl, hn, hle, by simp⟩

/-- A relation on the elements that are left is one on all of them. -/
theorem forall₂_filter {α : Type} {R : α → α → Prop} {p : α → Bool} {l l' : List α}
    (hp : ∀ a b, R a b → p a = true → p b = true) (h : List.Forall₂ R (l.filter p) l')
    : ∃ l'', l''.filter p = l' ∧ List.Forall₂ (fun a b => b = a ∨ R a b) l l'' := by
  induction l generalizing l' with
  | nil =>
    cases h
    exact ⟨[], rfl, .nil⟩
  | cons a l ih =>
    rw [List.filter_cons] at h
    cases ha : p a with
    | true =>
      rw [ha, if_pos rfl] at h
      cases h with
      | cons hfirst hrest =>
        obtain ⟨l'', hfilter, hall⟩ := ih hrest
        refine ⟨_ :: l'', ?_, .cons (.inr hfirst) hall⟩
        rw [List.filter_cons, if_pos (hp _ _ hfirst ha), hfilter]
    | false =>
      rw [ha, if_neg (by simp)] at h
      obtain ⟨l'', hfilter, hall⟩ := ih h
      refine ⟨a :: l'', ?_, .cons (.inl rfl) hall⟩
      rw [List.filter_cons, ha, if_neg (by simp), hfilter]

/-- The sections that are removed do not touch the contract. -/
theorem contracted_kept (h : Contracted cf (bodies.map (traits cf)))
    : Contracted cf ((bodies.filter kept).map (traits cf)) := by
  have heq : contractOf cf ((bodies.filter kept).map (traits cf)) = contractOf cf (bodies.map (traits cf)) := by
    rw [contractOf, contractOf, List.map_map, List.map_map]
    refine lookup_dictOf_filter fun body _ hkept => ?_
    intro hname
    obtain ⟨object, hobject⟩ : ∃ object, reservedObject (nameOf body) = some object := by
      rw [← Option.isSome_iff_exists]
      simpa [kept] using hkept
    have hlast := casefold_reserved cf hobject
    have hname : cf.casefold (nameOf body) = "1f25".toList := hname
    rw [hname] at hlast
    exact absurd hlast (by decide)
  rwa [Contracted, heq]

/-- The passes of `compact_dcf` without `master.bin`. -/
theorem compactDcf_none : compactDcf cf text none depth limit = .ok result
    ↔ ∃ text₁ text₂, normalizeMasterObjectContracts cf text = .ok text₁
      ∧ stripReservedTpdoSub4 cf text₁ = .ok (text₂, result.removedReservedTpdo)
      ∧ compactRanges cf depth text₂ = .ok (result.output, result.changes, result.maxNodeId)
      ∧ validateFilelessObjectValues cf result.output = .ok ()
      ∧ result.materialized = [] ∧ result.before = estimateSubobjects cf (splitLines text₁)
      ∧ result.after = estimateSubobjects cf (splitLines result.output)
      ∧ ¬(limit > 0 ∧ result.after.2 > limit) := by
  unfold compactDcf
  constructor
  . intro h
    obtain ⟨text₁, hnormalize, h⟩ := bind_eq_ok.mp h
    obtain ⟨⟨text₁', materialized⟩, hmaterialize, h⟩ := bind_eq_ok.mp h
    cases hmaterialize
    obtain ⟨⟨text₂, removed⟩, hstrip, h⟩ := bind_eq_ok.mp h
    obtain ⟨⟨output, changes, maxNodeId⟩, hranges, h⟩ := bind_eq_ok.mp h
    obtain ⟨⟨⟩, hvalidate, h⟩ := bind_eq_ok.mp h
    dsimp only at h
    split at h
    next => cases h
    next hlimit =>
      cases h
      exact ⟨text₁, text₂, hnormalize, hstrip, hranges, hvalidate, rfl, rfl, rfl, hlimit⟩
  . rintro ⟨text₁, text₂, hnormalize, hstrip, hranges, hvalidate, hmaterialized, hbefore, hafter, hlimit⟩
    obtain ⟨output, changes, removed, materialized, maxNodeId, estimate, estimate'⟩ := result
    dsimp only at hstrip hranges hvalidate hmaterialized hbefore hafter hlimit
    subst hmaterialized hbefore hafter
    simp only [hnormalize, materializeMasterBin, hstrip, hranges, hvalidate, bind, Except.bind, if_neg hlimit]
    rfl

/-- A compacted text is kept, and it differs from the text before by the values that are replaced and by the
sections that are removed. -/
theorem compactDcf_idempotent (hended : EndedLines (splitLines text))
    (h : compactDcf cf text none depth limit = .ok result)
    : compactDcf cf result.output none depth limit
        = .ok ⟨result.output, [], [], [], result.maxNodeId, result.after, result.after⟩
      ∧ ∃ (before : List (List Char)) (bodies bodies' : List (List (List Char))),
        Chunked sectionMark (splitLines text) before bodies
        ∧ splitLines result.output = before ++ (bodies'.filter kept).flatten ∧ bodies'.length = bodies.length
        ∧ ∀ (k : Nat) s body body', (collectSections (splitLines text))[k]? = some s → bodies[k]? = some body →
          bodies'[k]? = some body' → Compacted cf
            (removedFrom cf (byName cf (splitLines text)) (collectSections (splitLines text)) s) body body' := by
  obtain ⟨text₁, text₂, hnormalize, hstrip, hranges, hvalidate, _, _, hafter, hlimit⟩ := compactDcf_none.mp h
  obtain ⟨before, bodies, hchunked⟩ := exists_chunked sectionMark (splitLines text)
  obtain ⟨bodies₁, hnormalized, hchunked₁, hended₁, hcontract⟩ :=
    normalizeMasterObjectContracts_ok hended hchunked hnormalize
  obtain ⟨bodies₂, hstripped, hsplit₂, _, hended₂, _⟩ := stripReservedTpdoSub4_ok hended₁ hchunked₁ hstrip
  rw [← hsplit₂] at hended₂
  have hchunked₂ : Chunked sectionMark (splitLines text₂) before (bodies₂.filter kept) :=
    ⟨hsplit₂, hchunked₁.before, fun body hbody => hstripped.chunk hchunked₁.chunk body (List.mem_of_mem_filter hbody)⟩
  obtain ⟨hmax, bodies₃, hranged, hchunked₃, _⟩ := compactRanges_ok hended₂ hchunked₂ hranges
  have htraits₂ : bodies₂.map (traits cf) = bodies₁.map (traits cf) :=
    map_of_forall₂ hstripped.lowered fun _ _ ⟨_, hlowered⟩ => hlowered.traits
  have htraits₃ : bodies₃.map (traits cf) = (bodies₂.filter kept).map (traits cf) :=
    map_of_forall₂ hranged fun _ _ hbody => hbody.traits
  have hkept {body body' : List (List Char)} (hbody : Ranged cf depth result.maxNodeId
      (valueKeysOf ((bodies₂.filter kept).map (traits cf))) body body') (hkept : kept body = true)
      : kept body' = true := by
    rw [kept, nameOf, hbody.evolved.2]
    exact hkept
  constructor
  . rw [compactDcf_none]
    refine ⟨result.output, result.output, ?_, ?_, ?_, hvalidate, rfl, hafter, hafter, hlimit⟩
    . refine normalizeMasterObjectContracts_contracted hchunked₃ ?_
      rw [htraits₃]
      refine contracted_kept ?_
      rwa [htraits₂]
    . refine stripReservedTpdoSub4_kept hchunked₃ fun body hbody => ?_
      obtain ⟨body₂, hbody₂, hrange⟩ := exists_of_forall₂ hranged hbody
      exact hkept hrange (List.mem_filter.mp hbody₂).2
    . refine compactRanges_settled hchunked₃ ?_ fun body hbody => ?_
      . rw [configuredMaxNodeId_traits hchunked₃, htraits₃, ← configuredMaxNodeId_traits hchunked₂, hmax]
      . rw [htraits₃]
        obtain ⟨_, _, hrange⟩ := exists_of_forall₂ hranged hbody
        exact hrange.settled
  . obtain ⟨bodies₄, hfilter, hall⟩ := forall₂_filter (p := kept) (fun _ _ => hkept) hranged
    have hevolved : Evolved bodies bodies₁ := hnormalized.imp fun _ _ hbody => hbody.evolved
    have hsections : collectSections (splitLines text₁) = collectSections (splitLines text) := by
      rw [collectSections_chunked hchunked₁, collectSections_chunked hchunked, hevolved.chunkSections]
    have hbyName : byName cf (splitLines text₁) = byName cf (splitLines text) := by rw [byName, hsections, byName]
    refine ⟨before, bodies, bodies₄, hchunked, by rw [hfilter, hchunked₃.list], ?_, ?_⟩
    . rw [← hall.length_eq, hstripped.length, hnormalized.length_eq]
    . intro k s body body' hs hbody hbody'
      obtain ⟨hk, rfl⟩ := List.getElem?_eq_some_iff.mp hbody
      obtain ⟨hk', rfl⟩ := List.getElem?_eq_some_iff.mp hbody'
      have hk₁ : k < bodies₁.length := hnormalized.length_eq ▸ hk
      have hs₁ : (chunkSections before.length bodies₁)[k]? = some s := by
        rwa [← collectSections_chunked hchunked₁, hsections]
      obtain ⟨body₂, hbody₂, hlowered⟩ := hstripped.body k s _ hs₁ (List.getElem?_eq_getElem hk₁)
      obtain ⟨hk₂, rfl⟩ := List.getElem?_eq_some_iff.mp hbody₂
      rw [hbyName, hsections] at hlowered
      refine compacted_of_passes (List.Forall₂.get hnormalized hk hk₁) hlowered (List.Forall₂.get hall hk₂ hk') ?_
      intro hpos
      rw [collectSections_chunked hchunked, chunkSections_getElem hbody] at hs
      cases hs
      exact tpdoName_of_removedFrom hpos

/-- A TPDO with a reserved sub-index, and an error history of 20 errors. -/
theorem compactDcf_idempotent_tpdo : compactDcf .lower "[1800]\nSubNumber=4\n[1003]\r\nCompactSubObj=8\r\n".toList none 8 0
    = .ok ⟨"[1800]\nSubNumber=4\n[1003]\r\nCompactSubObj=8\r\n".toList, [], [], [], 1, (2, 13), (2, 13)⟩ := by
  obtain ⟨text, htext⟩ : ∃ text,
    text = "[1800]\nSubNumber=5\n[1800sub4]\nDataType=5\n[1003]\r\nCompactSubObj=20\r\n".toList := ⟨_, rfl⟩
  have hended : EndedLines (splitLines text) := by
    have hlines : splitLines text = ["[1800]".toList ++ ['\n'], "SubNumber=5".toList ++ ['\n'],
        "[1800sub4]".toList ++ ['\n'], "DataType=5".toList ++ ['\n'], "[1003]".toList ++ ['\r', '\n'],
        "CompactSubObj=20".toList ++ ['\r', '\n']] := by
      rw [htext]
      decide +kernel
    rw [hlines]
    exact .cons (by decide) (.inl rfl) (.cons (by decide) (.inl rfl) (.cons (by decide) (.inl rfl)
      (.cons (by decide) (.inl rfl) (.cons (by decide) (.inr rfl) (.cons (by decide) (.inr rfl) .nil)))))
  have hrun : compactDcf .lower text none 8 0
      = .ok ⟨"[1800]\nSubNumber=4\n[1003]\r\nCompactSubObj=8\r\n".toList, [⟨"1003".toList, 20, 8⟩],
        ["1800".toList], [], 1, (2, 26), (2, 13)⟩ := by
    rw [htext]
    decide +kernel
  exact (compactDcf_idempotent hended hrun).1

end

end LelyRtt.Dcf
