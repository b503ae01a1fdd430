import LelyRtt.Dcf.Strip

/-!
This module contains the passes of the compaction on the sections of a text: the contracts of the
Master, the ranges of the objects, and what of a section no pass changes.
-/

namespace LelyRtt.Dcf

open Text

/-! ### What no pass changes -/

/-- What the tool looks up in sections other than the one that it edits. -/
structure Traits where
  name : List Char
  keys : List Nat
  dataType : Option Nat

def traits (cf : CaseFold) (body : List (List Char)) : Traits :=
  ⟨nameOf body, bodyNumericKeys cf body, parseValue (bodyValues cf body) "datatype".toList⟩

section

variable {cf : CaseFold} {lines before body : List (List Char)} {bodies : List (List (List Char))}
  {j : Nat} {kv : KeyValue} {value k : List Char}

/-- What is computed from each section can be computed from its lines. -/
theorem collectSections_map {γ : Type} (h : Chunked sectionMark lines before bodies) (f : Section → γ)
    (g : List (List Char) → γ) (hfg : ∀ front body back, lines = front ++ (body ++ back) → body ∈ bodies →
      f ⟨nameOf body, front.length, front.length + body.length⟩ = g body)
    : (collectSections lines).map f = bodies.map g := by
  rw [collectSections_chunked h]
  refine List.ext_getElem? fun i => ?_
  rw [List.getElem?_map, List.getElem?_map]
  cases hi : (chunkSections before.length bodies)[i]? with
  | none =>
    have hle := List.getElem?_eq_none_iff.mp hi
    rw [chunkSections_length] at hle
    rw [List.getElem?_eq_none hle]
    rfl
  | some s =>
    obtain ⟨body, front, back, hbody, rfl, _, hlines, _⟩ := section_split hi
    rw [hbody, Option.map_some, Option.map_some, hfg front body back (h.list.trans hlines) (List.mem_of_getElem? hbody)]

theorem sectionValues_chunked (h : Chunked sectionMark lines before bodies) {front back : List (List Char)}
    (hlines : lines = front ++ (body ++ back)) (hbody : body ∈ bodies) (k : List Char)
    : ((sectionValues cf lines ⟨nameOf body, front.length, front.length + body.length⟩).lookup k).map (·.1)
      = ((bodyValues cf body).lookup k).map (·.1) := by
  rw [hlines, sectionValues_body _ (h.chunk body hbody).ne_nil, Option.map_map]
  rfl

theorem parseValue_chunked (h : Chunked sectionMark lines before bodies) {front back : List (List Char)}
    (hlines : lines = front ++ (body ++ back)) (hbody : body ∈ bodies) (k : List Char)
    : parseValue (sectionValues cf lines ⟨nameOf body, front.length, front.length + body.length⟩) k
      = parseValue (bodyValues cf body) k := by
  have hmap (values : Values) : parseValue values k = ((values.lookup k).map (·.1)).bind parseInt := by
    rw [parseValue, Option.bind_map]
    rfl
  rw [hmap, hmap, sectionValues_chunked h hlines hbody]

/-- The last section of a name, with what is computed from it. -/
theorem byName_map {γ : Type} (h : Chunked sectionMark lines before bodies) (f : Section → γ)
    (g : List (List Char) → γ) (hfg : ∀ front body back, lines = front ++ (body ++ back) → body ∈ bodies →
      f ⟨nameOf body, front.length, front.length + body.length⟩ = g body) (name : List Char)
    : ((byName cf lines).lookup name).map f
      = (dictOf (bodies.map fun body => (cf.casefold (nameOf body), g body))).lookup name := by
  rw [byName, ← lookup_dictOf_map, List.map_map]
  congr 2
  exact collectSections_map h (fun s => (cf.casefold s.name, f s)) _ fun front body back hlines hbody => by
    rw [hfg front body back hlines hbody]

/-- The node-IDs of the network. -/
def nodeIdsOf (cf : CaseFold) (traits : List Traits) : List Nat :=
  ((dictOf (traits.map fun t => (cf.casefold t.name, t.keys))).lookup "1f81value".toList).getD []

/-- The keys of the values of the objects. -/
def valueKeysOf (traits : List Traits) : List (List Char × List Nat) :=
  dictOf (traits.filterMap fun t => (valueSection t.name).map fun object => (upper object, t.keys))

theorem configuredMaxNodeId_traits {text : List Char} (h : Chunked sectionMark (splitLines text) before bodies)
    : configuredMaxNodeId cf text
      = if (nodeIdsOf cf (bodies.map (traits cf))).max?.getD 1 > 127 then
          .error (.nodeId ((nodeIdsOf cf (bodies.map (traits cf))).max?.getD 1))
        else .ok ((nodeIdsOf cf (bodies.map (traits cf))).max?.getD 1) := by
  have hids : nodeIdsOf cf (bodies.map (traits cf)) = (((byName cf (splitLines text)).lookup "1f81value".toList).map
      (numericValueKeys cf (splitLines text))).getD [] := by
    rw [nodeIdsOf, List.map_map]
    congr 1
    refine (byName_map h _ _ (fun front body back hlines hbody => ?_) _).symm
    rw [hlines]
    exact numericValueKeys_body _ (h.chunk body hbody).ne_nil
  rw [hids, configuredMaxNodeId]
  cases (byName cf (splitLines text)).lookup "1f81value".toList <;> rfl

theorem explicitValueKeys_traits (h : Chunked sectionMark lines before bodies)
    : explicitValueKeys cf lines = valueKeysOf (bodies.map (traits cf)) := by
  have hmap := collectSections_map h
    (fun s => (valueSection s.name).map fun object => (upper object, numericValueKeys cf lines s))
    (fun body => (valueSection (nameOf body)).map fun object => (upper object, bodyNumericKeys cf body))
    (fun front body back hlines hbody => by
      simp only [hlines, numericValueKeys_body _ (h.chunk body hbody).ne_nil])
  rw [explicitValueKeys, valueKeysOf, List.filterMap_map]
  have hid {α β : Type} (f : α → Option β) (l : List α) : l.filterMap f = (l.map f).filterMap id := by
    rw [List.filterMap_map]
    rfl
  rw [hid, hmap, ← hid]
  rfl

/-- A value of another key is kept. -/
theorem Rewrite.lookup_ne {v k' : List Char} (h : Rewrite body j kv value)
    (hv : (Dcf.bodyValues cf body).lookup k = some (v, j)) (hne : k' ≠ k)
    : (Dcf.bodyValues cf (rewrite body j kv value)).lookup k' = (Dcf.bodyValues cf body).lookup k' := by
  rw [h.bodyValues]
  cases hv' : (Dcf.bodyValues cf body).lookup k' with
  | none => rfl
  | some found =>
    obtain ⟨v', i⟩ := found
    have hi : i ≠ j := by
      rintro rfl
      exact hne (bodyValues_unique hv' hv)
    rw [Option.map_some]
    simp only [if_neg hi]

theorem Rewrite.traits {v : List Char} (h : Rewrite body j kv value)
    (hv : (Dcf.bodyValues cf body).lookup k = some (v, j)) (hne : "datatype".toList ≠ k)
    : traits cf (rewrite body j kv value) = Dcf.traits cf body := by
  rw [Dcf.traits, Dcf.traits, nameOf, nameOf, h.key, h.numericKeys, parseValue, parseValue, h.lookup_ne hv hne]

theorem Lowered.traits {r : Nat} {body' : List (List Char)} (h : Lowered cf r body body')
    : traits cf body' = Dcf.traits cf body := by
  cases h with
  | keep => rfl
  | lower hv _ _ _ hrewrite => exact hrewrite.traits hv (by decide)

end

/-! ### The sections that are removed -/

section

variable {cf : CaseFold} {name object : List Char}

theorem casefold_append (cf : CaseFold) (a b : List Char) : cf.casefold (a ++ b) = cf.casefold a ++ cf.casefold b :=
  List.flatMap_append

theorem casefold_ascii {s : List Char} (h : ∀ c ∈ s, c.toNat < 128) : cf.casefold s = s.map Char.toLower := by
  induction s with
  | nil => rfl
  | cons c s ih =>
    have hcons := casefold_append cf [c] s
    rw [List.singleton_append] at hcons
    rw [hcons, ih fun d hd => h d (List.mem_cons_of_mem _ hd), CaseFold.casefold, List.flatMap_singleton,
      cf.ascii c (h c List.mem_cons_self)]
    rfl

/-- The name of a reserved sub-index ends with its digit. -/
theorem reservedObject_last (h : reservedObject name = some object) : ∃ s, name = s ++ ['4'] := by
  obtain ⟨object', hreserved, _⟩ := Option.bind_eq_some_iff.mp h
  unfold reservedSub4 at hreserved
  simp only at hreserved
  split at hreserved
  next => cases hreserved
  next =>
    split at hreserved
    next s u b digits hdrop =>
      split at hreserved
      next hmatch =>
        obtain ⟨_, _, _, hdigits⟩ := hmatch
        have hname : name = name.take 4 ++ (s :: u :: b :: digits) := by
          rw [← hdrop, List.take_append_drop]
        obtain rfl | rfl := hdigits
        . exact ⟨name.take 4 ++ [s, u, b], hname.trans (by simp)⟩
        . exact ⟨name.take 4 ++ [s, u, b, '0'], hname.trans (by simp)⟩
      next => cases hreserved
    next => cases hreserved

variable (cf) in
theorem casefold_reserved (h : reservedObject name = some object)
    : (cf.casefold name).getLast? = some '4' := by
  obtain ⟨a, rfl⟩ := reservedObject_last h
  rw [casefold_append, casefold_ascii (s := ['4']) (by decide)]
  simp

theorem valueSection_reserved (h : reservedObject name = some object) : valueSection name = none := by
  obtain ⟨a, ha⟩ := reservedObject_last h
  rw [valueSection]
  split
  next hvalue =>
    obtain ⟨_, hdrop⟩ := hvalue
    have hlast : ((name.drop 4).map Char.toLower).getLast? = some '4' := by
      have hlong : 4 ≤ a.length := by
        by_contra hshort
        have hlength := congrArg List.length hdrop
        rw [List.length_map, List.length_drop, ha, List.length_append] at hlength
        simp at hlength
        omega
      rw [ha, List.drop_append_of_le_length hlong, List.map_append]
      simp
    rw [hdrop] at hlast
    cases hlast
  next => rfl

end

/-! ### The ranges of the objects -/

/-- The range of the object of a section is as small as it gets. -/
def Settled (cf : CaseFold) (depth maxNodeId : Nat) (keys : List (List Char × List Nat)) (body : List (List Char))
    : Prop :=
  ∀ v j n, isObject (nameOf body) = true → (bodyValues cf body).lookup "compactsubobj".toList = some (v, j) →
    parseInt v = some n → n ≤ compactTarget depth maxNodeId keys (upper (nameOf body)) n

/-- The section whose range becomes smaller. -/
inductive Ranged (cf : CaseFold) (depth maxNodeId : Nat) (keys : List (List Char × List Nat))
    : List (List Char) → List (List Char) → Prop
  | keep {body : List (List Char)} : Settled cf depth maxNodeId keys body → Ranged cf depth maxNodeId keys body body
  | lower {body : List (List Char)} {v : List Char} {j n target : Nat} {kv : KeyValue} :
      isObject (nameOf body) = true → (bodyValues cf body).lookup "compactsubobj".toList = some (v, j) →
      parseInt v = some n → target = compactTarget depth maxNodeId keys (upper (nameOf body)) n → target < n →
      Rewrite body j kv (decimal target) →
      Ranged cf depth maxNodeId keys body (rewrite body j kv (decimal target))

section

variable {cf : CaseFold} {depth maxNodeId : Nat} {keys : List (List Char × List Nat)} {object : List Char}
  {before after body body' : List (List Char)} {bodies : List (List (List Char))} {changes : List RangeChange}

theorem compactTarget_pos (n : Nat) : 0 < compactTarget depth maxNodeId keys object n :=
  Nat.lt_of_lt_of_le Nat.zero_lt_one (Nat.le_max_left 1 _)

/-- A range that is chosen stays the same. -/
theorem compactTarget_target (n : Nat) : compactTarget depth maxNodeId keys object n
    ≤ compactTarget depth maxNodeId keys object (compactTarget depth maxNodeId keys object n) := by
  unfold compactTarget
  dsimp only
  split
  . omega
  . split
    . omega
    . cases ((keys.lookup object).getD []).max? with
      | none =>
        simp only
        omega
      | some key =>
        simp only
        omega

theorem Ranged.settled (h : Ranged cf depth maxNodeId keys body body') : Settled cf depth maxNodeId keys body' := by
  cases h with
  | keep hsettled => exact hsettled
  | @lower _ j n target _ _ hv _ htarget _ hrewrite =>
    intro v' j' n' _ hv' hn'
    rw [hrewrite.bodyValues, hv, Option.map_some] at hv'
    simp only [if_true, Option.some_inj, Prod.mk.injEq] at hv'
    obtain ⟨rfl, rfl⟩ := hv'
    rw [parseInt_decimal, Option.some_inj] at hn'
    rw [nameOf, hrewrite.key, ← hn', htarget]
    exact compactTarget_target n

theorem Ranged.evolved (h : Ranged cf depth maxNodeId keys body body')
    : body'.length = body.length ∧ Text.key sectionMark body' = Text.key sectionMark body := by
  cases h with
  | keep => exact ⟨rfl, rfl⟩
  | lower _ _ _ _ _ hrewrite => exact ⟨length_rewrite, hrewrite.key⟩

theorem Ranged.chunk (h : Ranged cf depth maxNodeId keys body body') (hchunk : Chunk sectionMark body)
    : Chunk sectionMark body' := by
  cases h with
  | keep => exact hchunk
  | lower _ _ _ _ _ hrewrite => exact hrewrite.chunk hchunk

theorem Ranged.traits (h : Ranged cf depth maxNodeId keys body body') : traits cf body' = Dcf.traits cf body := by
  cases h with
  | keep => rfl
  | lower _ hv _ _ _ hrewrite => exact hrewrite.traits hv (by decide)

theorem Ranged.sameEnd {lines : List (List Char)} (h : Ranged cf depth maxNodeId keys body body')
    (hended : EndedLines lines) (hbody : ∀ l ∈ body, l ∈ lines) : List.Forall₂ SameEnd body body' := by
  cases h with
  | keep => exact List.forall₂_same.mpr fun _ _ => .refl _
  | lower _ hv hn _ _ hrewrite => exact hrewrite.sameEnd hended hbody ((hrewrite.value_eq hv).1 ▸ hn)

variable (cf depth maxNodeId keys before after changes) in
/-- The loop of `compact_dcf` for one section. -/
theorem compactSection_body (hchunk : Chunk sectionMark body)
    : ∃ body' changes', compactSection cf depth maxNodeId keys (before ++ (body ++ after), changes)
        ⟨nameOf body, before.length, before.length + body.length⟩ = .ok (before ++ (body' ++ after), changes')
      ∧ Ranged cf depth maxNodeId keys body body'
      ∧ (Settled cf depth maxNodeId keys body → body' = body ∧ changes' = changes) := by
  have hkeep (hsettled : Settled cf depth maxNodeId keys body)
      : Ranged cf depth maxNodeId keys body body
        ∧ (Settled cf depth maxNodeId keys body → body = body ∧ changes = changes) :=
    ⟨.keep hsettled, fun _ => ⟨rfl, rfl⟩⟩
  unfold compactSection
  cases hobject : isObject (nameOf body) with
  | false =>
    refine ⟨body, changes, by simp, hkeep fun v j n h => ?_⟩
    rw [hobject] at h
    cases h
  | true =>
    simp only [Bool.not_true, Bool.false_eq_true, if_false, sectionValues_body _ hchunk.ne_nil]
    cases hv : (bodyValues cf body).lookup "compactsubobj".toList with
    | none =>
      refine ⟨body, changes, rfl, hkeep fun v j n _ h => ?_⟩
      rw [hv] at h
      cases h
    | some found =>
      obtain ⟨v, j⟩ := found
      have hsettled (h : ∀ n, parseInt v = some n → n ≤ compactTarget depth maxNodeId keys (upper (nameOf body)) n)
          : Settled cf depth maxNodeId keys body := by
        intro v' j' n _ hv' hn
        rw [hv] at hv'
        cases hv'
        exact h n hn
      simp only [Option.map_some]
      split
      next hparse =>
        refine ⟨body, changes, rfl, hkeep (hsettled fun n hn => ?_)⟩
        rw [hparse] at hn
        cases hn
      next hparse =>
        refine ⟨body, changes, rfl, hkeep (hsettled fun n hn => ?_)⟩
        rw [hparse] at hn
        cases hn
        exact Nat.zero_le _
      next original _ hparse =>
        split
        next hless =>
          obtain ⟨kv, hrewrite, _, _, hreplace, hwritten⟩ := rewrite_line before after hv
            (written_decimal (compactTarget depth maxNodeId keys (upper (nameOf body)) original))
          refine ⟨rewrite body j kv (decimal (compactTarget depth maxNodeId keys (upper (nameOf body)) original)),
            changes ++ [⟨upper (nameOf body), original,
              compactTarget depth maxNodeId keys (upper (nameOf body)) original⟩], ?_, .lower hobject hv hparse rfl hless hrewrite, fun h => ?_⟩
          . rw [hreplace]
            simp only [bind, Except.bind, hwritten]
            rfl
          . exact absurd (h v j original hobject hv hparse) (Nat.not_le_of_lt hless)
        next hless =>
          refine ⟨body, changes, rfl, hkeep (hsettled fun n hn => ?_)⟩
          rw [hparse] at hn
          cases hn
          exact Nat.le_of_not_lt hless

variable (cf depth maxNodeId keys before changes) in
/-- The loop of `compact_dcf`. -/
theorem compactSections_bodies (hchunk : ∀ body ∈ bodies, Chunk sectionMark body)
    : ∃ bodies' changes', (chunkSections before.length bodies).foldlM (compactSection cf depth maxNodeId keys)
        (before ++ bodies.flatten, changes) = .ok (before ++ bodies'.flatten, changes')
      ∧ List.Forall₂ (Ranged cf depth maxNodeId keys) bodies bodies'
      ∧ ((∀ body ∈ bodies, Settled cf depth maxNodeId keys body) → bodies' = bodies ∧ changes' = changes) := by
  induction bodies generalizing before changes with
  | nil => exact ⟨[], changes, rfl, .nil, fun _ => ⟨rfl, rfl⟩⟩
  | cons body bodies ih =>
    obtain ⟨body', changes₁, hstep, hranged, hsettled⟩ := compactSection_body cf depth maxNodeId keys
      before bodies.flatten changes (hchunk body List.mem_cons_self)
    obtain ⟨bodies', changes₂, hrun, hrest, hsettled'⟩ := ih (before ++ body') changes₁
      fun b hb => hchunk b (List.mem_cons_of_mem _ hb)
    refine ⟨body' :: bodies', changes₂, ?_, .cons hranged hrest, fun h => ?_⟩
    . rw [List.length_append, hranged.evolved.1, List.append_assoc] at hrun
      rw [chunkSections, List.flatten_cons, List.foldlM_cons, hstep]
      simp only [bind, Except.bind]
      rw [hrun, List.flatten_cons, List.append_assoc]
    . obtain ⟨rfl, rfl⟩ := hsettled (h body List.mem_cons_self)
      obtain ⟨rfl, rfl⟩ := hsettled' fun b hb => h b (List.mem_cons_of_mem _ hb)
      exact ⟨rfl, rfl⟩

/-- What the second loop of `compact_dcf` makes of a text. -/
theorem compactRanges_ok {text out : List Char} (hended : EndedLines (splitLines text))
    (hchunked : Chunked sectionMark (splitLines text) before bodies)
    (h : compactRanges cf depth text = .ok (out, changes, maxNodeId))
    : configuredMaxNodeId cf text = .ok maxNodeId
      ∧ ∃ bodies', List.Forall₂ (Ranged cf depth maxNodeId (valueKeysOf (bodies.map (traits cf)))) bodies bodies'
        ∧ Chunked sectionMark (splitLines out) before bodies' ∧ EndedLines (splitLines out) := by
  obtain ⟨maxNodeId', hmax, h⟩ := bind_eq_ok.mp h
  obtain ⟨⟨lines, changes'⟩, hrun, h⟩ := bind_eq_ok.mp h
  cases h
  rw [explicitValueKeys_traits hchunked, collectSections_chunked hchunked] at hrun
  nth_rewrite 1 [hchunked.list] at hrun
  obtain ⟨bodies', changes', hloop, hranged, _⟩ := compactSections_bodies cf depth maxNodeId
    (valueKeysOf (bodies.map (traits cf))) before [] hchunked.chunk
  rw [hrun] at hloop
  cases hloop
  rw [hchunked.list] at hended
  have hended' : EndedLines (before ++ bodies'.flatten) :=
    ended_of_forall₂ hended hranged fun _ _ hbody => hbody.sameEnd hended
  refine ⟨hmax, bodies', hranged, ?_, ?_⟩
  . rw [splitLines_flatten (lines_of_ended hended')]
    refine ⟨rfl, hchunked.before, fun body' hbody' => ?_⟩
    obtain ⟨body, hbody, hrange⟩ := exists_of_forall₂ hranged hbody'
    exact hrange.chunk (hchunked.chunk body hbody)
  . rwa [splitLines_flatten (lines_of_ended hended')]

/-- Ranges that are as small as they get are kept. -/
theorem compactRanges_settled {text : List Char} (hchunked : Chunked sectionMark (splitLines text) before bodies)
    (hmax : configuredMaxNodeId cf text = .ok maxNodeId)
    (h : ∀ body ∈ bodies, Settled cf depth maxNodeId (valueKeysOf (bodies.map (traits cf))) body)
    : compactRanges cf depth text = .ok (text, [], maxNodeId) := by
  obtain ⟨bodies', changes', hloop, _, hsettled⟩ := compactSections_bodies cf depth maxNodeId
    (valueKeysOf (bodies.map (traits cf))) before [] hchunked.chunk
  obtain ⟨rfl, rfl⟩ := hsettled h
  rw [← hchunked.list] at hloop
  rw [compactRanges, hmax]
  simp only [bind, Except.bind, explicitValueKeys_traits hchunked, collectSections_chunked hchunked, hloop]
  rw [flatten_splitLines]
  rfl

end

end LelyRtt.Dcf
