import LelyRtt.Sdev.Normalize
import Mathlib.Tactic.IntervalCases

/-!
This module contains the run of the repair over all compact objects: what is repaired, what is kept,
and that a second run has nothing to do.
-/

namespace LelyRtt.Sdev

open Text Dcf

section

variable {lines cur : List (List Char)} {item item' : CompactDefault} {subidx subidx' i : Nat}
  {m m' : DefaultMatch}

/-- The tool takes the default of line `i` for that of a sub-object of an object. -/
structure Located (lines : List (List Char)) (item : CompactDefault) (subidx i : Nat) (m : DefaultMatch)
    : Prop where
  range : ∃ first start stop, (findObjects lines).starts.lookup item.index = some first
    ∧ subRange (markedLines subIndex lines first (((findObjects lines).ends.lookup item.index).getD 0))
        (((findObjects lines).ends.lookup item.index).getD 0) subidx = some (start, stop)
    ∧ scanDefault lines (List.range' start (stop - start)) none = (some item.info.type, some (i, m))
  field : m.field = item.info.field
  fits : formatDefault item = .ok (formatLiteral item.info item.value)

theorem Located.defaultAt (hdistinct : Distinct lines) (hascending : Ascending lines)
    (h : Located lines item subidx i m) : DefaultAt lines item.index subidx i m item.info.type := by
  obtain ⟨first, start, stop, hfirst, hrange, hscan⟩ := h.range
  obtain ⟨last, hlast, hobject⟩ := findObjects_spec hdistinct hfirst
  rw [hlast, Option.getD_some] at hrange
  have hsub := subRange_spec hascending hobject hrange
  obtain ⟨hstart, hstop, hm, hbefore, htypes⟩ := scanDefault_spec hscan
  have hlt := hsub.lt
  refine ⟨hm, start, stop, hsub, hstart, by omega, hbefore, ?_⟩
  obtain ⟨j, hj, hj', hname, _, hlater⟩ | ⟨htype, _⟩ := htypes
  . exact ⟨j, hj, hj', hname, hlater⟩
  . cases htype

/-- Two objects around one line are the same. -/
theorem ObjectAt.unique {index index' start stop start' stop' : Nat} (h : ObjectAt lines index start stop)
    (h' : ObjectAt lines index' start' stop') (hstart : start ≤ i) (hstop : i < stop)
    (hstart' : start' ≤ i) (hstop' : i < stop') : start = start' := by
  obtain hlt | heq | hlt := Nat.lt_trichotomy start start'
  . have hnone := h.inside start' hlt (by omega)
    rw [h'.marked] at hnone
    cases hnone
  . exact heq
  . have hnone := h'.inside start hlt (by omega)
    rw [h.marked] at hnone
    cases hnone

/-- Two sub-objects around one line are the same. -/
theorem SubAt.unique {index index' start stop start' stop' : Nat} (h : SubAt lines index subidx start stop)
    (h' : SubAt lines index' subidx' start' stop') (hstart : start ≤ i) (hstop : i < stop)
    (hstart' : start' ≤ i) (hstop' : i < stop') : index = index' ∧ subidx = subidx' := by
  obtain ⟨first, last, hobject, hfirst, hlast, _⟩ := h.object
  obtain ⟨first', last', hobject', hfirst', hlast', _⟩ := h'.object
  have heq := hobject.unique hobject' (i := i) (by omega) (by omega) (by omega) (by omega)
  subst heq
  have hindex := Option.some_inj.mp (hobject.marked.symm.trans hobject'.marked)
  refine ⟨hindex, ?_⟩
  obtain hlt | heq | hlt := Nat.lt_trichotomy start start'
  . have hnone := h.inside start' hlt (by omega)
    rw [h'.marked] at hnone
    cases hnone
  . subst heq
    exact Option.some_inj.mp (h.marked.symm.trans h'.marked)
  . have hnone := h'.inside start hlt (by omega)
    rw [h.marked] at hnone
    cases hnone

/-- A line has the default of one sub-object only. -/
theorem DefaultAt.unique {index index' : Nat} {type type' : List Char}
    (h : DefaultAt lines index subidx i m type) (h' : DefaultAt lines index' subidx' i m' type')
    : index = index' ∧ subidx = subidx' := by
  obtain ⟨start, stop, hsub, hstart, hstop, _⟩ := h.first
  obtain ⟨start', stop', hsub', hstart', hstop', _⟩ := h'.first
  exact hsub.unique hsub' hstart hstop hstart' hstop'

theorem Located.match (h : Located lines item subidx i m) : matchDefault (lines.getD i []) = some m := by
  obtain ⟨first, start, stop, _, _, hscan⟩ := h.range
  exact (scanDefault_spec hscan).2.2.1

theorem default_lt (h : matchDefault (lines.getD i []) = some m) : i < lines.length := by
  by_contra hle
  rw [getD_of_le (by omega)] at h
  cases h

/-- A default is located at the same line after edits. -/
theorem Located.edited (h : Located lines item subidx i m) (hedited : Edited lines cur)
    (hm : matchDefault (cur.getD i []) = some m') (hfield : m'.field = m.field)
    : Located cur item subidx i m' := by
  obtain ⟨first, start, stop, hfirst, hrange, hscan⟩ := h.range
  refine ⟨⟨first, start, stop, ?_, ?_, ?_⟩, hfield.trans h.field, h.fits⟩
  . rw [hedited.findObjects, hfirst]
  . rw [hedited.findObjects, markedLines_congr fun i => (hedited.same i).marks.2.1, hrange]
  . have hsame := scanDefault_edited hedited (List.range' start (stop - start)) none
    rw [hscan] at hsame
    rw [Option.bind_some, hm, Option.map_some] at hsame
    exact Prod.ext hsame.1 hsame.2

/-- A default that is located after edits was located at the same line before them. -/
theorem Located.unedited (h : Located cur item subidx i m') (hedited : Edited lines cur)
    : ∃ m, Located lines item subidx i m := by
  obtain ⟨first, start, stop, hfirst, hrange, hscan⟩ := h.range
  rw [hedited.findObjects] at hfirst hrange
  rw [markedLines_congr fun i => (hedited.same i).marks.2.1] at hrange
  have hsame := scanDefault_edited hedited (List.range' start (stop - start)) none
  rw [hscan] at hsame
  obtain ⟨⟨i', m⟩, hscan', hfound⟩ := Option.bind_eq_some_iff.mp hsame.2.symm
  obtain ⟨m'', hm'', heq⟩ := Option.map_eq_some_iff.mp hfound
  obtain ⟨rfl, rfl⟩ := Prod.mk.inj heq
  refine ⟨m, ⟨first, start, stop, hfirst, hrange, Prod.ext hsame.1.symm hscan'⟩, ?_, h.fits⟩
  obtain ⟨value, hvalue, _⟩ := (hedited.same i').matchDefault_some (scanDefault_spec
    (Prod.ext rfl hscan' : scanDefault lines (List.range' start (stop - start)) none = (_, some (i', m)))).2.2.1
  rw [hm''] at hvalue
  cases hvalue
  exact h.field

theorem IsDefault.strip_value (h : IsDefault m (lines.getD i [])) : strip m.value = m.value := by
  by_cases hnil : m.value = []
  . rw [hnil]
    rfl
  . refine strip_eq ?_ h.ends
    intro c hc
    refine h.begins c ?_
    obtain ⟨c', tail, heq⟩ := List.exists_cons_of_ne_nil hnil
    rw [heq] at hc ⊢
    exact hc

theorem withValue_inj {value value' : List Char} (h : m.withValue value = m.withValue value')
    : value = value' :=
  List.append_cancel_right (List.append_cancel_left h)

theorem getD_set_self {line : List Char} (h : i < lines.length) : (lines.set i line).getD i [] = line := by
  rw [List.getD_eq_getElem?_getD, List.getElem?_set_self h]
  rfl

theorem getD_set_ne {line : List Char} {j : Nat} (h : i ≠ j)
    : (lines.set i line).getD j [] = lines.getD j [] := by
  rw [List.getD_eq_getElem?_getD, List.getElem?_set_ne h, ← List.getD_eq_getElem?_getD]

theorem Edited.refl (lines : List (List Char)) : Edited lines lines := ⟨rfl, fun _ => .refl _⟩

/-- A default that is replaced once more. -/
theorem Edited.set {value : List Char} (h : Edited lines cur) (hm : matchDefault (lines.getD i []) = some m)
    (hvalue : Solid value) : Edited lines (cur.set i (m.withValue value)) := by
  refine ⟨by rw [List.length_set, h.length], fun j => ?_⟩
  by_cases heq : i = j
  . subst heq
    have hlt : i < cur.length := by
      rw [h.length]
      exact default_lt hm
    rw [getD_set_self hlt]
    exact .edit hm hvalue
  . rw [getD_set_ne heq]
    exact h.same j

end

/-! ### One sub-object -/

section

variable {lines cur cur' : List (List Char)} {item : CompactDefault} {subidx first : Nat}
  {changes changes' : List Change} {expected : List Char}

/-- The steps of the repair of one sub-object. -/
theorem normalizeSub_ok (hedited : Edited lines cur)
    (hfirst : (findObjects lines).starts.lookup item.index = some first)
    (hfits : formatDefault item = .ok (formatLiteral item.info item.value))
    (h : normalizeSub item (formatLiteral item.info item.value)
        (markedLines subIndex lines first (((findObjects lines).ends.lookup item.index).getD 0))
        (((findObjects lines).ends.lookup item.index).getD 0) (cur, changes) subidx = .ok (cur', changes'))
    : ∃ i m, Located cur item subidx i m
      ∧ (m.value = formatLiteral item.info item.value ∧ cur' = cur ∧ changes' = changes
        ∨ m.value ≠ formatLiteral item.info item.value
          ∧ cur' = cur.set i (m.withValue (formatLiteral item.info item.value))
          ∧ changes' = changes ++ [⟨item.index, subidx, m.value, formatLiteral item.info item.value⟩]) := by
  unfold normalizeSub at h
  split at h
  next => cases h
  next start stop hrange =>
    split at h
    next type found hscan =>
      split at h
      next => cases h
      next htype =>
        split at h
        next => cases h
        next i m =>
          split at h
          next => cases h
          next hfield =>
            rw [not_not] at htype hfield
            subst htype
            have hm : matchDefault (cur.getD i []) = some m := (scanDefault_spec hscan).2.2.1
            have hlocated : Located cur item subidx i m := by
              refine ⟨⟨first, start, stop, ?_, ?_, hscan⟩, hfield, hfits⟩
              . rw [hedited.findObjects, hfirst]
              . rw [hedited.findObjects, markedLines_congr fun i => (hedited.same i).marks.2.1, hrange]
            have hstrip := (matchDefault_eq_some.mp hm).strip_value
            rw [hstrip] at h
            refine ⟨i, m, hlocated, ?_⟩
            split at h
            next heq =>
              cases h
              exact .inl ⟨heq, rfl, rfl⟩
            next hne =>
              cases h
              refine .inr ⟨hne, ?_, rfl⟩
              rw [List.append_assoc]
              rfl

/-- A default that has the value is kept. -/
theorem normalizeSub_settled {i : Nat} {m : DefaultMatch}
    (hfirst : (findObjects lines).starts.lookup item.index = some first)
    (h : Located lines item subidx i m) (hvalue : m.value = formatLiteral item.info item.value)
    : normalizeSub item (formatLiteral item.info item.value)
        (markedLines subIndex lines first (((findObjects lines).ends.lookup item.index).getD 0))
        (((findObjects lines).ends.lookup item.index).getD 0) (lines, changes) subidx
        = .ok (lines, changes) := by
  obtain ⟨first', start, stop, hfirst', hrange, hscan⟩ := h.range
  obtain rfl : first = first' := Option.some_inj.mp (hfirst.symm.trans hfirst')
  have hstrip := (matchDefault_eq_some.mp h.match).strip_value
  rw [hvalue] at hstrip
  simp only [normalizeSub, hrange, hscan, hstrip, hvalue, h.field, ne_eq, not_true_eq_false, if_false, if_true]

end

/-! ### All sub-objects -/

/-- A line whose default is replaced, with what is reported of it. -/
structure Replaced (lines cur : List (List Char)) (done : List (CompactDefault × Nat)) (change : Change)
    (i : Nat) : Prop where
  replaced : ∃ item subidx m, (item, subidx) ∈ done ∧ Located lines item subidx i m
    ∧ change = ⟨item.index, subidx, m.value, formatLiteral item.info item.value⟩
    ∧ m.value ≠ formatLiteral item.info item.value
    ∧ cur.getD i [] = m.withValue (formatLiteral item.info item.value)

/-- What the repair of the sub-objects in `done` has made of the lines. -/
structure Progress (lines cur : List (List Char)) (changes : List Change)
    (done : List (CompactDefault × Nat)) : Prop where
  edited : Edited lines cur
  settled : ∀ item subidx, (item, subidx) ∈ done → ∃ i m, Located cur item subidx i m
    ∧ m.value = formatLiteral item.info item.value
  places : ∃ places : List Nat, places.Nodup ∧ List.Forall₂ (Replaced lines cur done) changes places
    ∧ ∀ i, i ∉ places → cur.getD i [] = lines.getD i []

/-- What `parse_compact_defaults` ensures of an item. -/
structure Parsed (item : CompactDefault) : Prop where
  info : typeInfo item.dataType = some item.info
  pos : 0 < item.count

theorem Parsed.solid {item : CompactDefault} (h : Parsed item)
    : Solid (formatLiteral item.info item.value) := by
  obtain ⟨_, hne, hword⟩ := formatLiteral_spec h.info item.value
  exact solid_of_word hne hword

/-- The sub-objects of items. -/
def pairs (items : List CompactDefault) : List (CompactDefault × Nat) :=
  items.flatMap fun item => (List.range' 1 item.count).map fun subidx => (item, subidx)

section

variable {lines cur cur' : List (List Char)} {item : CompactDefault} {subidx first : Nat}
  {changes changes' : List Change} {done : List (CompactDefault × Nat)}

theorem Progress.start (lines : List (List Char)) : Progress lines lines [] [] where
  edited := Edited.refl lines
  settled _ _ h := nomatch h
  places := ⟨[], List.nodup_nil, .nil, fun _ _ => rfl⟩

theorem exists_of_forall₂_right {α β : Type} {R : α → β → Prop} {l : List α} {l' : List β} {b : β}
    (h : List.Forall₂ R l l') (hb : b ∈ l') : ∃ a ∈ l, R a b := by
  induction h with
  | nil => cases hb
  | cons hhead _ ih =>
    obtain rfl | hb := List.mem_cons.mp hb
    . exact ⟨_, List.mem_cons_self, hhead⟩
    . obtain ⟨a, ha, hR⟩ := ih hb
      exact ⟨a, List.mem_cons_of_mem _ ha, hR⟩

/-- One more sub-object is repaired. -/
theorem Progress.sub (hdistinct : Distinct lines) (hascending : Ascending lines)
    (h : Progress lines cur changes done) (hparsed : Parsed item)
    (hnew : ∀ item' subidx', (item', subidx') ∈ done → ¬(item'.index = item.index ∧ subidx' = subidx))
    (hfirst : (findObjects lines).starts.lookup item.index = some first)
    (hfits : formatDefault item = .ok (formatLiteral item.info item.value))
    (hstep : normalizeSub item (formatLiteral item.info item.value)
        (markedLines subIndex lines first (((findObjects lines).ends.lookup item.index).getD 0))
        (((findObjects lines).ends.lookup item.index).getD 0) (cur, changes) subidx = .ok (cur', changes'))
    : Progress lines cur' changes' (done ++ [(item, subidx)]) := by
  obtain ⟨i, m, hlocated, hcases⟩ := normalizeSub_ok h.edited hfirst hfits hstep
  obtain ⟨m₀, hlocated₀⟩ := hlocated.unedited h.edited
  -- the line is no line of a sub-object that is done
  have hother {item' : CompactDefault} {subidx' : Nat} {m' : DefaultMatch}
      (hdone : (item', subidx') ∈ done) : ¬Located lines item' subidx' i m' := by
    intro hlocated'
    have hsame := (hlocated'.defaultAt hdistinct hascending).unique
      (hlocated₀.defaultAt hdistinct hascending)
    exact hnew item' subidx' hdone hsame
  obtain ⟨places, hnodup, hreplaced, hkept⟩ := h.places
  have hplace : i ∉ places := by
    intro hmem
    obtain ⟨change, _, ⟨item', subidx', m', hdone, hlocated', _⟩⟩ :=
      exists_of_forall₂_right hreplaced hmem
    exact hother hdone hlocated'
  have hm₀ : m₀ = m := by
    have hmatch := hlocated.match
    rw [hkept i hplace, hlocated₀.match] at hmatch
    exact Option.some_inj.mp hmatch
  subst hm₀
  have hmem {p : CompactDefault × Nat} (hp : p ∈ done) : p ∈ done ++ [(item, subidx)] :=
    List.mem_append_left _ hp
  obtain ⟨hvalue, rfl, rfl⟩ | ⟨hvalue, rfl, rfl⟩ := hcases
  . refine ⟨h.edited, ?_, places, hnodup, ?_, hkept⟩
    . intro item' subidx' hpair
      obtain hdone | hpair := List.mem_append.mp hpair
      . exact h.settled item' subidx' hdone
      . cases List.mem_singleton.mp hpair
        exact ⟨i, m₀, hlocated, hvalue⟩
    . refine hreplaced.imp fun change j ⟨item', subidx', m', hdone, hrest⟩ => ?_
      exact ⟨item', subidx', m', hmem hdone, hrest⟩
  . have hedited : Edited cur (cur.set i (m₀.withValue (formatLiteral item.info item.value))) :=
      (Edited.refl cur).set hlocated.match hparsed.solid
    have hlt : i < cur.length := default_lt hlocated.match
    refine ⟨h.edited.set hlocated₀.match hparsed.solid, ?_, places ++ [i], ?_, ?_, ?_⟩
    . intro item' subidx' hpair
      obtain hdone | hpair := List.mem_append.mp hpair
      . obtain ⟨j, m', hlocated', hvalue'⟩ := h.settled item' subidx' hdone
        obtain ⟨m₁, hlocated₁⟩ := hlocated'.unedited h.edited
        have hne : i ≠ j := by
          rintro rfl
          exact hother hdone hlocated₁
        refine ⟨j, m', hlocated'.edited hedited ?_ rfl, hvalue'⟩
        rw [getD_set_ne hne]
        exact hlocated'.match
      . cases List.mem_singleton.mp hpair
        refine ⟨i, { m₀ with value := formatLiteral item.info item.value }, hlocated.edited hedited ?_ rfl, rfl⟩
        rw [getD_set_self hlt, matchDefault_eq_some]
        exact (matchDefault_eq_some.mp hlocated.match).withValue hparsed.solid
    . rw [List.nodup_append]
      refine ⟨hnodup, List.nodup_singleton i, ?_⟩
      intro j hj k hk heq
      rw [List.mem_singleton.mp hk] at heq
      exact hplace (heq ▸ hj)
    . have hold : List.Forall₂ (Replaced lines (cur.set i (m₀.withValue (formatLiteral item.info item.value)))
          (done ++ [(item, subidx)])) changes places := by
        refine hreplaced.imp fun change j ⟨item', subidx', m', hdone, hlocated', hrest⟩ => ?_
        have hne : i ≠ j := by
          rintro rfl
          exact hother hdone hlocated'
        refine ⟨item', subidx', m', hmem hdone, hlocated', ?_⟩
        rwa [getD_set_ne hne]
      refine List.rel_append hold (.cons ⟨item, subidx, m₀, by simp, hlocated₀, rfl, hvalue, ?_⟩ .nil)
      rw [getD_set_self hlt]
    . intro j hj
      rw [List.mem_append, not_or] at hj
      have hne : i ≠ j := by
        rintro rfl
        exact hj.2 (by simp)
      rw [getD_set_ne hne, hkept j hj.1]

/-- The inner loop of `normalize_c_text`. -/
theorem Progress.subs (hdistinct : Distinct lines) (hascending : Ascending lines) (hparsed : Parsed item)
    (hfirst : (findObjects lines).starts.lookup item.index = some first)
    (hfits : formatDefault item = .ok (formatLiteral item.info item.value)) {subs : List Nat}
    (hnodup : subs.Nodup) (h : Progress lines cur changes done)
    (hnew : ∀ subidx ∈ subs, ∀ item' subidx', (item', subidx') ∈ done →
      ¬(item'.index = item.index ∧ subidx' = subidx))
    (hrun : subs.foldlM (normalizeSub item (formatLiteral item.info item.value)
        (markedLines subIndex lines first (((findObjects lines).ends.lookup item.index).getD 0))
        (((findObjects lines).ends.lookup item.index).getD 0)) (cur, changes) = .ok (cur', changes'))
    : Progress lines cur' changes' (done ++ subs.map fun subidx => (item, subidx)) := by
  induction subs generalizing cur changes done with
  | nil =>
    cases hrun
    simpa using h
  | cons subidx subs ih =>
    rw [List.foldlM_cons] at hrun
    obtain ⟨⟨mid, changes₁⟩, hstep, hrun⟩ := bind_eq_ok.mp hrun
    obtain ⟨hsubidx, hnodup⟩ := List.nodup_cons.mp hnodup
    have hmid := h.sub hdistinct hascending hparsed (hnew subidx List.mem_cons_self) hfirst hfits hstep
    rw [List.map_cons, List.append_cons]
    refine ih hnodup hmid (fun subidx₁ hmem item' subidx' hpair heq => ?_) hrun
    obtain hdone | hpair := List.mem_append.mp hpair
    . exact hnew subidx₁ (List.mem_cons_of_mem _ hmem) item' subidx' hdone heq
    . cases List.mem_singleton.mp hpair
      exact hsubidx (heq.2 ▸ hmem)

/-- What `normalize_c_text` does for one object. -/
theorem normalizeItem_ok (hedited : Edited lines cur)
    (h : normalizeItem (findObjects lines) (cur, changes) item = .ok (cur', changes'))
    : ∃ first, (findObjects lines).starts.lookup item.index = some first
      ∧ formatDefault item = .ok (formatLiteral item.info item.value)
      ∧ (List.range' 1 item.count).foldlM (normalizeSub item (formatLiteral item.info item.value)
        (markedLines subIndex lines first (((findObjects lines).ends.lookup item.index).getD 0))
        (((findObjects lines).ends.lookup item.index).getD 0)) (cur, changes) = .ok (cur', changes') := by
  unfold normalizeItem at h
  split at h
  next => cases h
  next first hfirst =>
    obtain ⟨expected, hexpected, hrun⟩ := bind_eq_ok.mp h
    obtain rfl : expected = formatLiteral item.info item.value := by
      unfold formatDefault at hexpected
      split at hexpected
      next => cases hexpected
      next =>
        cases hexpected
        rfl
    refine ⟨first, hfirst, hexpected, ?_⟩
    rwa [markedLines_congr fun i => (hedited.same i).marks.2.1] at hrun

/-- The outer loop of `normalize_c_text`. -/
theorem Progress.items (hdistinct : Distinct lines) (hascending : Ascending lines)
    {items : List CompactDefault} (hparsed : ∀ item ∈ items, Parsed item)
    (hnodup : (items.map (·.index)).Nodup) (h : Progress lines cur changes done)
    (hnew : ∀ item ∈ items, ∀ item' subidx', (item', subidx') ∈ done → item'.index ≠ item.index)
    (hrun : items.foldlM (normalizeItem (findObjects lines)) (cur, changes) = .ok (cur', changes'))
    : Progress lines cur' changes' (done ++ pairs items) := by
  induction items generalizing cur changes done with
  | nil =>
    cases hrun
    simpa [pairs] using h
  | cons item items ih =>
    rw [List.foldlM_cons] at hrun
    obtain ⟨⟨mid, changes₁⟩, hstep, hrun⟩ := bind_eq_ok.mp hrun
    obtain ⟨hindex, hnodup⟩ := List.nodup_cons.mp hnodup
    obtain ⟨first, hfirst, hfits, hsubs⟩ := normalizeItem_ok h.edited hstep
    have hmid := h.subs hdistinct hascending (hparsed item List.mem_cons_self) hfirst hfits
      List.nodup_range' (fun _ _ item' subidx' hdone heq => hnew item List.mem_cons_self item' subidx' hdone heq.1)
      hsubs
    rw [pairs, List.flatMap_cons, ← List.append_assoc]
    refine ih (fun item hmem => hparsed item (List.mem_cons_of_mem _ hmem)) hnodup hmid
      (fun item₁ hmem item' subidx' hpair heq => ?_) hrun
    obtain hdone | hpair := List.mem_append.mp hpair
    . exact hnew item₁ (List.mem_cons_of_mem _ hmem) item' subidx' hdone heq
    . obtain ⟨_, _, hpair⟩ := List.mem_map.mp hpair
      cases hpair
      exact hindex (List.mem_map.mpr ⟨item₁, hmem, heq.symm⟩)

/-- A second run keeps the lines. -/
theorem items_settled {items : List CompactDefault} (hparsed : ∀ item ∈ items, Parsed item)
    (h : ∀ item subidx, (item, subidx) ∈ pairs items → ∃ i m, Located lines item subidx i m
      ∧ m.value = formatLiteral item.info item.value)
    : items.foldlM (normalizeItem (findObjects lines)) (lines, changes) = .ok (lines, changes) := by
  induction items with
  | nil => rfl
  | cons item items ih =>
    have hpair {subidx : Nat} (hmem : subidx ∈ List.range' 1 item.count)
        : (item, subidx) ∈ pairs (item :: items) :=
      List.mem_flatMap.mpr ⟨item, List.mem_cons_self, List.mem_map.mpr ⟨subidx, hmem, rfl⟩⟩
    have hone : 1 ∈ List.range' 1 item.count := by
      have hpos := (hparsed item List.mem_cons_self).pos
      exact List.mem_range'_1.mpr ⟨Nat.le_refl _, by omega⟩
    obtain ⟨_, _, hlocated, _⟩ := h item 1 (hpair hone)
    obtain ⟨first, _, _, hfirst, _⟩ := hlocated.range
    have hsubs (subs : List Nat) (hsubs : ∀ subidx ∈ subs, subidx ∈ List.range' 1 item.count)
        : subs.foldlM (normalizeSub item (formatLiteral item.info item.value)
          (markedLines subIndex lines first (((findObjects lines).ends.lookup item.index).getD 0))
          (((findObjects lines).ends.lookup item.index).getD 0)) (lines, changes) = .ok (lines, changes) := by
      induction subs with
      | nil => rfl
      | cons subidx subs ihsubs =>
        obtain ⟨i, m, hsub, hvalue⟩ := h item subidx (hpair (hsubs subidx List.mem_cons_self))
        rw [List.foldlM_cons, normalizeSub_settled hfirst hsub hvalue]
        exact ihsubs fun subidx hmem => hsubs subidx (List.mem_cons_of_mem _ hmem)
    have hitem : normalizeItem (findObjects lines) (lines, changes) item = .ok (lines, changes) := by
      rw [normalizeItem, hfirst]
      simp only [hlocated.fits]
      exact hsubs _ fun _ hmem => hmem
    rw [List.foldlM_cons, hitem]
    refine ih (fun item hmem => hparsed item (List.mem_cons_of_mem _ hmem)) fun item' subidx hmem => ?_
    obtain ⟨item₁, hitem₁, hmem⟩ := List.mem_flatMap.mp hmem
    exact h item' subidx (List.mem_flatMap.mpr ⟨item₁, List.mem_cons_of_mem _ hitem₁, hmem⟩)

end

/-! ### The objects of the DCF -/

/-- A digit of the name of an object has one value only. -/
theorem hexDigit_name {c : Char} (h : (c.isDigit || ('a' ≤ c && c ≤ 'f')) = true)
    : ∃ d, d < 16 ∧ hexDigit c = some d ∧ d.digitChar = c := by
  have hc : c = Char.ofNat c.toNat := (Char.ofNat_toNat c).symm
  have hrange : 48 ≤ c.toNat ∧ c.toNat ≤ 57 ∨ 97 ≤ c.toNat ∧ c.toNat ≤ 102 := by
    simp only [Char.isDigit, Bool.or_eq_true, Bool.and_eq_true, decide_eq_true_eq] at h
    exact h.imp id id
  generalize c.toNat = n at hc hrange
  subst hc
  obtain ⟨hle, hle'⟩ | ⟨hle, hle'⟩ := hrange
  . refine ⟨n - 48, by omega, ?_⟩
    interval_cases n <;> decide
  . refine ⟨n - 87, by omega, ?_⟩
    interval_cases n <;> decide

/-- Names of objects with one index are equal. -/
theorem natOfDigits_inj {name name' : List Char} (hlength : name.length = name'.length)
    (h : ∀ c ∈ name, (c.isDigit || ('a' ≤ c && c ≤ 'f')) = true)
    (h' : ∀ c ∈ name', (c.isDigit || ('a' ≤ c && c ≤ 'f')) = true)
    (heq : natOfDigits 16 name = natOfDigits 16 name') : name = name' := by
  induction name using List.reverseRecOn generalizing name' with
  | nil => exact (List.eq_nil_of_length_eq_zero hlength.symm).symm
  | append_singleton name c ih =>
    obtain rfl | ⟨name', c', rfl⟩ := List.eq_nil_or_concat' name'
    . simp at hlength
    . simp only [List.length_append, List.length_singleton, Nat.add_right_cancel_iff] at hlength
      obtain ⟨d, hd, hhex, hchar⟩ := hexDigit_name (h c (by simp))
      obtain ⟨d', hd', hhex', hchar'⟩ := hexDigit_name (h' c' (by simp))
      rw [natOfDigits_concat, natOfDigits_concat, hhex, hhex', Option.getD_some, Option.getD_some] at heq
      have hdigit : d = d' := by omega
      have hrest := ih hlength (fun c hc => h c (List.mem_append_left _ hc))
        (fun c hc => h' c (List.mem_append_left _ hc)) (by omega)
      rw [hrest, ← hchar, ← hchar', hdigit]

/-- The DCF has an object with a number of compact sub-objects, a data type and a default. -/
structure CompactObject (cf : CaseFold) (dcfText : List Char) (index count dataType value : Nat) : Prop where
  object : ∃ name values, (name, values) ∈ readSections cf dcfText ∧ isObjectName name = true
    ∧ index = natOfDigits 16 name
    ∧ (values.lookup "compactsubobj".toList).bind parseInt = some count
    ∧ (values.lookup "datatype".toList).bind parseInt = some dataType
    ∧ (values.lookup "defaultvalue".toList).bind parseInt = some value

section

variable {name : List Char} {values : List (List Char × List Char)} {item : CompactDefault}
  {items : List CompactDefault} {sections : Sections}

theorem compactDefault_item (h : compactDefault name values = .ok (some item))
    : isObjectName name = true ∧ item.index = natOfDigits 16 name ∧ Parsed item
      ∧ (values.lookup "compactsubobj".toList).bind parseInt = some item.count
      ∧ (values.lookup "datatype".toList).bind parseInt = some item.dataType
      ∧ (values.lookup "defaultvalue".toList).bind parseInt = some item.value := by
  unfold compactDefault at h
  split at h
  next => cases h
  next hname =>
    have hname : isObjectName name = true := by simpa using hname
    split at h
    next compactText defaultText dataTypeText hcompact hdefault htype =>
      split at h
      next => cases h
      next => cases h
      next count hpos hcount =>
        split at h
        next => cases h
        next value hvalue =>
          split at h
          next => cases h
          next dataType hdataType =>
            split at h
            next => cases h
            next info hinfo =>
              cases h
              refine ⟨hname, rfl, ⟨hinfo, ?_⟩, ?_, ?_, ?_⟩
              . exact Nat.pos_of_ne_zero hpos
              . rw [hcompact, Option.bind_some, hcount]
              . rw [htype, Option.bind_some, hdataType]
              . rw [hdefault, Option.bind_some, hvalue]
    next => cases h

/-- A section of an object gives an item, or the tool raises. -/
theorem compactDefault_object {count dataType value : Nat} {result : Option CompactDefault}
    (hname : isObjectName name = true)
    (hcount : (values.lookup "compactsubobj".toList).bind parseInt = some count)
    (htype : (values.lookup "datatype".toList).bind parseInt = some dataType)
    (hvalue : (values.lookup "defaultvalue".toList).bind parseInt = some value)
    (h : compactDefault name values = .ok result)
    : ∃ info, typeInfo dataType = some info
      ∧ result = some ⟨natOfDigits 16 name, count, dataType, info, value⟩ := by
  obtain ⟨compactText, hcompact, hcount⟩ := Option.bind_eq_some_iff.mp hcount
  obtain ⟨typeText, htype, hdataType⟩ := Option.bind_eq_some_iff.mp htype
  obtain ⟨defaultText, hdefault, hvalue⟩ := Option.bind_eq_some_iff.mp hvalue
  simp only [compactDefault, hname, hcompact, htype, hdefault, hcount, hdataType, hvalue, Bool.not_true,
    Bool.false_eq_true, if_false] at h
  split at h
  next => cases h
  next => cases h
  next count' _ heq =>
    cases heq
    split at h
    next => cases h
    next info hinfo =>
      cases h
      exact ⟨info, hinfo, rfl⟩

theorem mem_compactDefaults (h : compactDefaults sections = .ok items)
    : item ∈ items ↔ ∃ name values, (name, values) ∈ sections
      ∧ compactDefault name values = .ok (some item) := by
  induction sections generalizing items with
  | nil =>
    cases h
    simp
  | cons entry sections ih =>
    obtain ⟨name, values⟩ := entry
    rw [compactDefaults] at h
    obtain ⟨result, hresult, h⟩ := bind_eq_ok.mp h
    obtain ⟨rest, hrest, h⟩ := bind_eq_ok.mp h
    cases h
    have hhead : item ∈ result.toList ↔ compactDefault name values = .ok (some item) := by
      rw [hresult, Option.mem_toList, Except.ok.injEq]
    rw [List.mem_append, hhead, ih hrest]
    constructor
    . rintro (hitem | ⟨name', values', hmem, hitem⟩)
      . exact ⟨name, values, List.mem_cons_self, hitem⟩
      . exact ⟨name', values', List.mem_cons_of_mem _ hmem, hitem⟩
    . rintro ⟨name', values', hmem, hitem⟩
      obtain heq | hmem := List.mem_cons.mp hmem
      . cases heq
        exact .inl hitem
      . exact .inr ⟨name', values', hmem, hitem⟩

/-- Different sections give objects with different indexes. -/
theorem nodup_compactDefaults (hsections : (sections.map (·.1)).Nodup)
    (h : compactDefaults sections = .ok items) : (items.map (·.index)).Nodup := by
  induction sections generalizing items with
  | nil =>
    cases h
    exact List.nodup_nil
  | cons entry sections ih =>
    obtain ⟨name, values⟩ := entry
    obtain ⟨hname, hsections⟩ := List.nodup_cons.mp hsections
    rw [compactDefaults] at h
    obtain ⟨result, hresult, h⟩ := bind_eq_ok.mp h
    obtain ⟨rest, hrest, h⟩ := bind_eq_ok.mp h
    cases h
    cases result with
    | none => exact ih hsections hrest
    | some item =>
      refine List.nodup_cons.mpr ⟨fun hmem => ?_, ih hsections hrest⟩
      obtain ⟨item', hitem', heq⟩ := List.mem_map.mp hmem
      obtain ⟨name', values', hsection, hresult'⟩ := (mem_compactDefaults hrest).mp hitem'
      obtain ⟨hobject, hindex, _⟩ := compactDefault_item hresult
      obtain ⟨hobject', hindex', _⟩ := compactDefault_item hresult'
      simp only [isObjectName, List.all_eq_true, decide_eq_true_eq] at hobject hobject'
      have hsame := natOfDigits_inj (hobject'.1.trans hobject.1.symm) hobject'.2 hobject.2
        (hindex'.symm.trans (heq.trans hindex))
      subst hsame
      exact hname (List.mem_map.mpr ⟨_, hsection, rfl⟩)

theorem nodup_readSections (cf : CaseFold) (text : List Char) : ((readSections cf text).map (·.1)).Nodup := by
  unfold readSections
  suffices h : ∀ (lines : List (List Char)) (state : Sections × Option (List Char)), (state.1.map (·.1)).Nodup →
      ((lines.foldl (readLine cf) state).1.map (·.1)).Nodup from h _ ([], none) List.nodup_nil
  intro lines
  induction lines with
  | nil => exact fun _ h => h
  | cons line lines ih =>
    refine fun state h => ih _ ?_
    unfold readLine
    split
    . exact nodup_dictSet h
    . split
      . exact h
      . split
        . exact h
        . exact nodup_dictSet h

theorem parsed_items (h : compactDefaults sections = .ok items) : ∀ item ∈ items, Parsed item := by
  intro item hitem
  obtain ⟨name, values, _, hresult⟩ := (mem_compactDefaults h).mp hitem
  exact (compactDefault_item hresult).2.2.1

end

/-! ### The whole run -/

section

variable {cf : CaseFold} {dcfText cText out : List Char} {changes : List Change}
  {lines cur : List (List Char)} {items : List CompactDefault}

/-- Edited lines of a text are the lines of the edited text. -/
theorem Edited.splitLines (h : Edited (splitLines cText) cur) : splitLines cur.flatten = cur := by
  have hlines := lines_splitLines cText
  refine splitLines_flatten (hlines.edit (List.forall₂_of_length_eq_of_get h.length.symm ?_))
  intro i hi hi'
  have hsame := h.same i
  rw [List.getD_eq_getElem?_getD, List.getElem?_eq_getElem hi, List.getD_eq_getElem?_getD,
    List.getElem?_eq_getElem hi', Option.getD_some, Option.getD_some] at hsame
  rw [List.get_eq_getElem, List.get_eq_getElem]
  have hmem := List.getElem_mem hi
  generalize (Text.splitLines cText)[i] = line at hsame hmem
  generalize cur[i] = line' at hsame
  cases hsame with
  | refl => exact .refl _
  | @edit m _ value hm hvalue =>
    have hdefault := matchDefault_eq_some.mp hm
    obtain ⟨w, w', _, _, hrest⟩ := hdefault.rest
    have hline : line = (m.head ++ m.value) ++ (w ++ '}' :: (',' :: w')) := by
      rw [hdefault.line, hrest]
      simp
    have hplain : Plain (m.head ++ m.value) := hlines.plain (by decide) (hline ▸ hmem)
    have hhead : Plain m.head := hplain.sublist (List.sublist_append_left _ _)
    have hne : m.head ≠ [] := by
      obtain ⟨_, _, _, _, _, _, _, hhead⟩ := hdefault.head.split
      rw [hhead]
      simp
    rw [DefaultMatch.withValue, hdefault.line, ← List.append_assoc, ← List.append_assoc]
    exact .edit hplain (by simp [hne]) (hhead.append hvalue.plain) (by simp [hne])

/-- What a run makes of the lines of the C text. -/
theorem normalizeCText_progress (hdistinct : Distinct (splitLines cText))
    (hascending : Ascending (splitLines cText)) (h : normalizeCText cf dcfText cText = .ok (out, changes))
    : ∃ items, parseCompactDefaults cf dcfText = .ok items
      ∧ Progress (splitLines cText) (splitLines out) changes (pairs items) := by
  obtain ⟨items, hitems, hrun⟩ := bind_eq_ok.mp h
  refine ⟨items, hitems, ?_⟩
  split at hrun
  next hnil =>
    cases hrun
    rw [hnil]
    exact Progress.start _
  next =>
    obtain ⟨⟨cur, changes'⟩, hrun, hresult⟩ := bind_eq_ok.mp hrun
    cases hresult
    have hprogress := (Progress.start (splitLines cText)).items hdistinct hascending
      (parsed_items hitems) (nodup_compactDefaults (nodup_readSections cf dcfText) hitems)
      (fun _ _ _ _ hdone => nomatch hdone) hrun
    rw [List.nil_append] at hprogress
    rwa [hprogress.edited.splitLines]

/-- The items are the compact objects of the DCF. -/
theorem items_of_object {index count dataType value : Nat} (hitems : parseCompactDefaults cf dcfText = .ok items)
    (h : CompactObject cf dcfText index count dataType value)
    : ∃ info, typeInfo dataType = some info ∧ ⟨index, count, dataType, info, value⟩ ∈ items := by
  obtain ⟨name, values, hsection, hname, rfl, hcount, htype, hvalue⟩ := h.object
  have hresult : ∃ result, compactDefault name values = .ok result := by
    have hall : ∀ {sections : Sections} {items}, compactDefaults sections = .ok items →
        (name, values) ∈ sections → ∃ result, compactDefault name values = .ok result := by
      intro sections
      induction sections with
      | nil => exact fun _ hmem => nomatch hmem
      | cons entry sections ih =>
        intro items h hmem
        obtain ⟨name', values'⟩ := entry
        rw [compactDefaults] at h
        obtain ⟨result, hresult, h⟩ := bind_eq_ok.mp h
        obtain ⟨rest, hrest, _⟩ := bind_eq_ok.mp h
        obtain heq | hmem := List.mem_cons.mp hmem
        . cases heq
          exact ⟨result, hresult⟩
        . exact ih hrest hmem
    exact hall hitems hsection
  obtain ⟨result, hresult⟩ := hresult
  obtain ⟨info, hinfo, rfl⟩ := compactDefault_object hname hcount htype hvalue hresult
  exact ⟨info, hinfo, (mem_compactDefaults hitems).mpr ⟨name, values, hsection, hresult⟩⟩

theorem object_of_item {item : CompactDefault} (hitems : parseCompactDefaults cf dcfText = .ok items)
    (hitem : item ∈ items)
    : CompactObject cf dcfText item.index item.count item.dataType item.value := by
  obtain ⟨name, values, hsection, hresult⟩ := (mem_compactDefaults hitems).mp hitem
  obtain ⟨hname, hindex, _, hcount, htype, hvalue⟩ := compactDefault_item hresult
  exact ⟨name, values, hsection, hname, hindex, hcount, htype, hvalue⟩

theorem mem_pairs {item : CompactDefault} {subidx : Nat}
    : (item, subidx) ∈ pairs items ↔ item ∈ items ∧ 1 ≤ subidx ∧ subidx ≤ item.count := by
  simp only [pairs, List.mem_flatMap, List.mem_map, List.mem_range'_1, Prod.mk.injEq]
  constructor
  . rintro ⟨item', hitem, subidx', hrange, rfl, rfl⟩
    exact ⟨hitem, hrange.1, by omega⟩
  . rintro ⟨hitem, hle, hle'⟩
    exact ⟨item, hitem, subidx, ⟨hle, by omega⟩, rfl, rfl⟩

/-- A default with the type and the field of an entry of `TYPE_INFO` whose literal denotes `value`. -/
structure Denotes (lines : List (List Char)) (index subidx i : Nat) (info : TypeInfo) (m : DefaultMatch)
    (value : Nat) : Prop where
  default : DefaultAt lines index subidx i m info.type
  field : m.field = info.field
  value : literalValue m.value = some value

/-- A changed line: the default of a sub-object of a compact object whose value is replaced. -/
structure Reported (cf : CaseFold) (dcfText : List Char) (lines lines' : List (List Char)) (change : Change)
    (i : Nat) : Prop where
  object : ∃ count dataType value info m, CompactObject cf dcfText change.index count dataType value
    ∧ 1 ≤ change.subidx ∧ change.subidx ≤ count ∧ typeInfo dataType = some info
    ∧ DefaultAt lines change.index change.subidx i m info.type ∧ m.value = change.current
    ∧ literalValue change.expected = some value ∧ lines'.getD i [] = m.withValue change.expected

/-- The repair gives each sub-object of a compact object the default of the DCF, changes exactly the
lines that it reports, and has nothing to do for its own output. -/
theorem compact_defaults_repaired (hdistinct : Distinct (splitLines cText))
    (hascending : Ascending (splitLines cText)) (h : normalizeCText cf dcfText cText = .ok (out, changes))
    : (∀ index count dataType value, CompactObject cf dcfText index count dataType value →
        ∃ info, typeInfo dataType = some info ∧ ∀ subidx, 1 ≤ subidx → subidx ≤ count →
          ∃ i m, Denotes (splitLines out) index subidx i info m value)
      ∧ (splitLines out).length = (splitLines cText).length
      ∧ (∃ places : List Nat, places.Nodup
        ∧ (∀ i, i ∈ places ↔ (splitLines out).getD i [] ≠ (splitLines cText).getD i [])
        ∧ List.Forall₂ (Reported cf dcfText (splitLines cText) (splitLines out)) changes places)
      ∧ normalizeCText cf dcfText out = .ok (out, []) := by
  obtain ⟨items, hitems, hprogress⟩ := normalizeCText_progress hdistinct hascending h
  have hmark (i : Nat) := (hprogress.edited.same i).marks
  have hdistinct' : Distinct (splitLines out) := by
    intro i j index hi hj
    rw [(hmark i).1] at hi
    rw [(hmark j).1] at hj
    exact hdistinct i j index hi hj
  have hascending' : Ascending (splitLines out) := by
    intro index first last hobject i j a b hfirst hij hlast hi hj
    rw [(hmark i).2.1] at hi
    rw [(hmark j).2.1] at hj
    refine hascending index first last ⟨?_, hobject.lt, ?_, ?_, ?_⟩ i j a b hfirst hij hlast hi hj
    . rw [← (hmark first).1, hobject.marked]
    . exact hprogress.edited.length ▸ hobject.le
    . intro k hk hk'
      rw [← (hmark k).1, hobject.inside k hk hk']
    . rw [← (hmark last).1, ← hprogress.edited.length]
      exact hobject.next
  refine ⟨?_, hprogress.edited.length, ?_, ?_⟩
  . intro index count dataType value hobject
    obtain ⟨info, hinfo, hitem⟩ := items_of_object hitems hobject
    refine ⟨info, hinfo, fun subidx hle hle' => ?_⟩
    obtain ⟨i, m, hlocated, hvalue⟩ := hprogress.settled _ subidx (mem_pairs.mpr ⟨hitem, hle, hle'⟩)
    refine ⟨i, m, hlocated.defaultAt hdistinct' hascending', hlocated.field, ?_⟩
    rw [hvalue]
    exact (formatLiteral_spec hinfo value).1
  . obtain ⟨places, hnodup, hreplaced, hkept⟩ := hprogress.places
    refine ⟨places, hnodup, fun i => ⟨fun hmem => ?_, fun hne => ?_⟩, ?_⟩
    . obtain ⟨change, _, ⟨item, subidx, m, _, hlocated, _, hvalue, hline⟩⟩ :=
        exists_of_forall₂_right hreplaced hmem
      rw [hline, (matchDefault_eq_some.mp hlocated.match).line]
      exact fun heq => hvalue (withValue_inj heq).symm
    . by_contra hmem
      exact hne (hkept i hmem)
    . refine hreplaced.imp ?_
      rintro change i ⟨item, subidx, m, hpair, hlocated, rfl, _, hline⟩
      obtain ⟨hitem, hle, hle'⟩ := mem_pairs.mp hpair
      have hinfo := (parsed_items hitems item hitem).info
      exact ⟨item.count, item.dataType, item.value, item.info, m, object_of_item hitems hitem, hle, hle', hinfo,
        hlocated.defaultAt hdistinct hascending, rfl, (formatLiteral_spec hinfo item.value).1, hline⟩
  . rw [normalizeCText, hitems]
    change (if items = [] then _ else _) = _
    split
    . rfl
    . rw [items_settled (parsed_items hitems) hprogress.settled]
      change Except.ok ((splitLines out).flatten, _) = _
      rw [flatten_splitLines]

/-- An object with two sub-objects of one byte, whose defaults 1 become 7, and the value of the first of them stays. -/
theorem compact_defaults_repaired_byte
    : ∃ out, (∀ subidx, 1 ≤ subidx → subidx ≤ 2 → ∃ i m, Denotes (splitLines out)
        0x2000 subidx i ⟨"CO_DEFTYPE_UNSIGNED8".toList, "u8".toList, 2, []⟩ m 7)
      ∧ (splitLines out).getD 4 [] = ".val = \x7b .u8 = 0x05 \x7d,\n".toList := by
  obtain ⟨c, hc⟩ : ∃ c, c = (".idx = 0x2000,\n.subidx = 0x01,\n.type = CO_DEFTYPE_UNSIGNED8,\n.def = \x7b .u8 = 0x01 \x7d,\n.val = \x7b .u8 = 0x05 \x7d,\n".toList
      ++ ".subidx = 0x02,\n.type = CO_DEFTYPE_UNSIGNED8,\n.def = \x7b .u8 = 0x01 \x7d,\n".toList) := ⟨_, rfl⟩
  obtain ⟨o, ho⟩ : ∃ o, o = (".idx = 0x2000,\n.subidx = 0x01,\n.type = CO_DEFTYPE_UNSIGNED8,\n.def = \x7b .u8 = 0x07 \x7d,\n.val = \x7b .u8 = 0x05 \x7d,\n".toList
      ++ ".subidx = 0x02,\n.type = CO_DEFTYPE_UNSIGNED8,\n.def = \x7b .u8 = 0x07 \x7d,\n".toList) := ⟨_, rfl⟩
  have hlines : splitLines c = [".idx = 0x2000,\n".toList, ".subidx = 0x01,\n".toList, ".type = CO_DEFTYPE_UNSIGNED8,\n".toList,
      ".def = \x7b .u8 = 0x01 \x7d,\n".toList, ".val = \x7b .u8 = 0x05 \x7d,\n".toList, ".subidx = 0x02,\n".toList,
      ".type = CO_DEFTYPE_UNSIGNED8,\n".toList, ".def = \x7b .u8 = 0x01 \x7d,\n".toList] := by
    rw [hc]
    decide +kernel
  have hlength : (splitLines c).length = 8 := by
    rw [hlines]
    decide +kernel
  have hobject : ∀ i < 8, (objectIndex ((splitLines c).getD i [])).isSome → i = 0 := by
    rw [hlines]
    decide +kernel
  have hsub : ∀ i < 8, ∀ a ∈ subIndex ((splitLines c).getD i []), i = 1 ∧ a = 1 ∨ i = 5 ∧ a = 2 := by
    rw [hlines]
    decide +kernel
  have hdistinct : Distinct (splitLines c) := by
    intro i j index hi hj
    rw [hobject i (hlength ▸ lt_of_objectIndex hi) (by rw [hi]; rfl),
      hobject j (hlength ▸ lt_of_objectIndex hj) (by rw [hj]; rfl)]
  have hascending : Ascending (splitLines c) := by
    intro index first last hobject i j a b _ hij hlast hi hj
    have hle := hobject.le
    have hfirst := hsub i (by omega) a hi
    have hsecond := hsub j (by omega) b hj
    omega
  have hitems : parseCompactDefaults .lower "[2000]\nDataType=5\nCompactSubObj=2\nDefaultValue=7\n".toList
      = .ok [⟨0x2000, 2, 5, ⟨"CO_DEFTYPE_UNSIGNED8".toList, "u8".toList, 2, []⟩, 7⟩] := by
    decide +kernel
  have hrun : normalizeCText .lower
      "[2000]\nDataType=5\nCompactSubObj=2\nDefaultValue=7\n".toList c
      = .ok (o,
        [⟨0x2000, 1, "0x01".toList, "0x07".toList⟩, ⟨0x2000, 2, "0x01".toList, "0x07".toList⟩]) := by
    rw [normalizeCText, hitems]
    dsimp only [bind, Except.bind]
    rw [if_neg (by simp), hlines, ho]
    decide +kernel
  have hcompact : CompactObject .lower
      "[2000]\nDataType=5\nCompactSubObj=2\nDefaultValue=7\n".toList 0x2000 2 5 7 := by
    refine ⟨"2000".toList, [("datatype".toList, ['5']), ("compactsubobj".toList, ['2']),
      ("defaultvalue".toList, ['7'])], ?_, by decide, by decide, by decide, by decide, by decide⟩
    decide +kernel
  obtain ⟨info, hinfo, hsubs⟩ := (compact_defaults_repaired hdistinct hascending hrun).1 0x2000 2 5 7 hcompact
  cases hinfo
  refine ⟨o, hsubs, ?_⟩
  rw [ho]
  decide +kernel

end

end LelyRtt.Sdev
