import LelyRtt.Dcf.Readings

/-!
This module contains what it means for what is read from a text that a value is written into it: into a
section, and into the section with the values of an object.
-/

namespace LelyRtt.Dcf

open Text

/-! ### Values of a section -/

/-- The last line of a section with a key. -/
def lastItem (cf : CaseFold) (items : List (KeyValue × Nat)) (key : List Char) : Option (KeyValue × Nat) :=
  (dictOf (items.map fun item => (cf.casefold item.1.key, item))).lookup key

/-- The value of a key. -/
def valueAt (cf : CaseFold) (items : List (KeyValue × Nat)) (key : List Char) : Option (List Char) :=
  (lastItem cf items key).map fun item => strip item.1.value

/-- The keys and the values of the lines of a section, without those of one key. -/
def otherItems (cf : CaseFold) (items : List (KeyValue × Nat)) (key : List Char) : List (List Char × List Char) :=
  (items.filter fun item => cf.casefold item.1.key ≠ key).map fun item => (item.1.key, strip item.1.value)

section

variable {cf : CaseFold} {lines before body line : List (List Char)} {front back : List (List (List Char))}
  {items : List (KeyValue × Nat)} {text out name key value s : List Char} {kv : KeyValue} {j : Nat}

theorem bodyValues_lastItem (cf : CaseFold) (body : List (List Char)) (key : List Char)
    : (bodyValues cf body).lookup key
      = (lastItem cf (bodyKeyValues body) key).map fun item => (strip item.1.value, item.2) := by
  rw [bodyValues, lastItem, ← lookup_dictOf_map, List.map_map]
  rfl

/-- A text with a character that is no blank is not blank. -/
theorem strip_ne_nil {c : Char} (hc : c ∈ s) (hspace : isSpace c = false) : strip s ≠ [] := by
  intro hnil
  have hall : ∀ c ∈ lstrip s, isSpace c = true := List.rdropWhile_eq_nil_iff.mp hnil
  obtain hmem | hmem := List.mem_append.mp (List.takeWhile_append_dropWhile (p := isSpace) (l := s) ▸ hc)
  . rw [List.mem_takeWhile_imp hmem] at hspace
    cases hspace
  . rw [hall c hmem] at hspace
    cases hspace

theorem IsKeyValue.not_blank {line : List Char} (h : IsKeyValue kv line) : strip line ≠ [] := by
  obtain ⟨name, w, _, _, _, hhead, _⟩ := h.head
  refine strip_ne_nil (c := '=') ?_ (by decide)
  rw [h.line, hhead]
  simp

/-- A blank line has no key. -/
theorem matchKeyValue_blank (h : strip s = []) : matchKeyValue s = none :=
  Option.eq_none_iff_forall_ne_some.mpr fun _ hmatch => (matchKeyValue_eq_some.mp hmatch).not_blank h

theorem sectionMark_not_blank {name : List Char} (h : sectionMark s = some name) : strip s ≠ [] := by
  intro hblank
  have hall : ∀ c ∈ rstripEnd s, isSpace c = true := by
    intro c hc
    by_contra hspace
    exact strip_ne_nil ((List.rdropWhile_prefix _ _).subset hc) (by simpa using hspace) hblank
  rw [sectionMark, sectionName] at h
  obtain ⟨s₁, hs₁, _⟩ := Option.bind_eq_some_iff.mp h
  obtain ⟨w, _, heq⟩ := (skipLit_eq_some (begins_of_head (by rfl) : Begins ['[']) (by decide)).mp hs₁
  have hbracket := hall '[' (by rw [heq]; simp)
  exact absurd hbracket (by decide)

theorem keyValues_append (l l' : List (List Char)) (i : Nat)
    : keyValues (l ++ l') i = keyValues l i ++ keyValues l' (i + l.length) := by
  induction l generalizing i with
  | nil => rfl
  | cons line l ih =>
    rw [List.cons_append, keyValues, keyValues, ih, List.length_cons, Nat.add_assoc, Nat.add_comm 1]
    cases matchKeyValue line <;> rfl

theorem keyValues_blank {l : List (List Char)} (h : ∀ line ∈ l, strip line = []) (i : Nat) : keyValues l i = [] := by
  induction l generalizing i with
  | nil => rfl
  | cons line l ih =>
    rw [keyValues, matchKeyValue_blank (h line List.mem_cons_self)]
    exact ih (fun l hl => h l (List.mem_cons_of_mem _ hl)) _

/-- The line that is written for a key. -/
theorem isKeyValue_line {stop : List Char} (hkey : Written key) (heq : '=' ∉ key) (hvalue : Written value)
    (hstop : stop = ['\n'] ∨ stop = ['\r', '\n'])
    : IsKeyValue ⟨key ++ ['='], key, value, stop⟩ (key ++ '=' :: (value ++ stop)) where
  line := by simp
  head := ⟨key, [], hkey.ne_nil, heq, fun _ hc => (nomatch hc), by simp, hkey.strip_value.symm⟩
  begins := hvalue.begins.append hvalue.ne_nil _
  stop := splitEnd_plain hvalue.plain (.inr hstop)

theorem lastItem_mem {item : KeyValue × Nat} (h : lastItem cf items key = some item)
    : item ∈ items ∧ cf.casefold item.1.key = key := by
  obtain ⟨item', hmem, heq⟩ := List.mem_map.mp (mem_of_lookup h)
  cases heq
  exact ⟨hmem, rfl⟩

theorem lastItem_concat (items : List (KeyValue × Nat)) (item : KeyValue × Nat)
    : lastItem cf (items ++ [item]) key = if key = cf.casefold item.1.key then some item else lastItem cf items key := by
  rw [lastItem, lastItem, lookup_dictOf, lookup_dictOf, List.map_append, List.reverse_append, List.map_singleton,
    List.reverse_singleton, List.singleton_append, lookup_cons_eq]

theorem lastItem_cons (item : KeyValue × Nat) (items : List (KeyValue × Nat))
    : lastItem cf (item :: items) key
      = (lastItem cf items key).or (if key = cf.casefold item.1.key then some item else none) := by
  rw [lastItem, lastItem, lookup_dictOf, lookup_dictOf, List.map_cons, List.reverse_cons, List.lookup_append,
    lookup_cons_eq]
  rfl

theorem lastItem_none (h : ∀ item ∈ items, cf.casefold item.1.key ≠ key) : lastItem cf items key = none := by
  induction items with
  | nil => rfl
  | cons item items ih =>
    rw [lastItem_cons, ih fun i hi => h i (List.mem_cons_of_mem _ hi), if_neg fun heq => h item List.mem_cons_self heq.symm]
    rfl

/-- A value that is written is the one that is read. -/
theorem lastItem_rewrite (h : Rewrite body j kv value) {v : List Char}
    (hv : (bodyValues cf body).lookup key = some (v, j))
    : lastItem cf (bodyKeyValues body) key = some (kv, j)
      ∧ lastItem cf (bodyKeyValues (rewrite body j kv value)) key = some ({ kv with value := value }, j) := by
  rw [bodyValues_lastItem] at hv
  obtain ⟨⟨kv', j'⟩, hitem, heq⟩ := Option.map_eq_some_iff.mp hv
  cases heq
  obtain rfl : kv' = kv := h.item (lastItem_mem hitem).1 rfl
  refine ⟨hitem, ?_⟩
  have hmap : (bodyKeyValues (rewrite body j' kv' value)).map (fun item => (cf.casefold item.1.key, item))
      = ((bodyKeyValues body).map fun item => (cf.casefold item.1.key, item)).map fun entry =>
        (entry.1, if entry.2.2 = j' then ({ kv' with value := value }, entry.2.2) else entry.2) := by
    rw [h.bodyKeyValues, List.map_map, List.map_map]
    refine List.map_congr_left fun item hitem => ?_
    simp only [Function.comp_apply]
    split
    next hj => rw [h.item hitem hj]
    next => rfl
  rw [lastItem, hmap, lookup_dictOf_map (fun item : KeyValue × Nat => if item.2 = j' then ({ kv' with value := value }, item.2) else item),
    ← lastItem, hitem]
  simp

theorem otherItems_rewrite (h : Rewrite body j kv value) (hkey : cf.casefold kv.key = key)
    : otherItems cf (bodyKeyValues (rewrite body j kv value)) key = otherItems cf (bodyKeyValues body) key := by
  have hkey' : ∀ item ∈ bodyKeyValues body, item.2 = j → cf.casefold item.1.key = key := fun item hitem hj => by
    rw [h.item hitem hj, hkey]
  rw [h.bodyKeyValues, otherItems, otherItems, List.filter_map, List.map_map]
  have hfilter : (bodyKeyValues body).filter ((fun item => decide (cf.casefold item.1.key ≠ key))
      ∘ fun item => if item.2 = j then ({ kv with value := value }, item.2) else item)
      = (bodyKeyValues body).filter fun item => decide (cf.casefold item.1.key ≠ key) := by
    refine List.filter_congr fun item hitem => ?_
    simp only [Function.comp_apply]
    split
    next hj => rw [hkey' item hitem hj, hkey]
    next => rfl
  rw [hfilter]
  refine List.map_congr_left fun item hitem => ?_
  obtain ⟨hmem, hne⟩ := List.mem_filter.mp hitem
  simp only [Function.comp_apply]
  rw [if_neg fun hj => of_decide_eq_true hne (hkey' item hmem hj)]

/-- A line that is rewritten ends as before. -/
theorem sameEnd_rewrite (h : Rewrite body j kv value) (hended : EndedLines lines) (hbody : ∀ l ∈ body, l ∈ lines)
    (hhead : Plain kv.head) : List.Forall₂ SameEnd body (rewrite body j kv value) := by
  refine h.forall₂ .refl fun line hline hmatch => ?_
  have hkv := matchKeyValue_eq_some.mp hmatch
  have hplain := plain_value hkv hended (hbody line (List.mem_of_getElem? hline))
  rw [hkv.line, ← List.append_assoc, ← List.append_assoc]
  exact .edit (hhead.append hplain) (by simp [hkv.head_ne_nil]) (hhead.append h.value.plain) (by simp [hkv.head_ne_nil])

theorem loose_rewrite (h : Rewrite body j kv value) (hended : EndedLines lines) (hbody : ∀ l ∈ body, l ∈ lines)
    (hhead : Plain kv.head) (hloose : Loose (rewrite body j kv value)) : Loose body := by
  obtain ⟨line, hline, hmatch⟩ := h.line
  obtain ⟨last, hlast, hplain, hblank⟩ := hloose
  have hj : j < body.length := (List.getElem?_eq_some_iff.mp hline).1
  rw [List.getLast?_eq_getElem?, length_rewrite] at hlast
  by_cases heq : j = body.length - 1
  . have hkv := matchKeyValue_eq_some.mp hmatch
    rw [heq, rewrite, List.getElem?_set_self (by omega)] at hlast
    cases hlast
    have hstop : kv.stop = [] := by
      obtain hstop | hstop | hstop := hkv.stop_cases
      . exact hstop
      . exact absurd (hplain '\n' (by simp [hstop])) (by decide)
      . exact absurd (hplain '\n' (by simp [hstop])) (by decide)
    refine ⟨line, ?_, ?_, hkv.not_blank⟩
    . rw [List.getLast?_eq_getElem?, ← heq]
      exact hline
    . rw [hkv.line, hstop, List.append_nil]
      exact hhead.append (plain_value hkv hended (hbody line (List.mem_of_getElem? hline)))
  . rw [rewrite, List.getElem?_set_ne heq] at hlast
    exact ⟨last, by rw [List.getLast?_eq_getElem?]; exact hlast, hplain, hblank⟩

/-! ### The place of a line that is inserted -/

/-- The line is put before the blank lines at the end of the section. -/
theorem insertAt_body (before : List (List Char)) {k : Nat} (hk : 0 < k) (hle : k ≤ body.length) (after : List (List Char))
    : ∃ m, insertAt (before ++ (body ++ after)) before.length (before.length + k) = before.length + m ∧ 0 < m ∧ m ≤ k
      ∧ (∀ i, m ≤ i → i < k → strip (body.getD i []) = []) ∧ (m = 1 ∨ strip (body.getD (m - 1) []) ≠ []) := by
  induction k with
  | zero => exact absurd hk (Nat.lt_irrefl 0)
  | succ k ih =>
    have hget : (before ++ (body ++ after)).getD (before.length + k) [] = body.getD k [] := by
      rw [List.getD_eq_getElem?_getD, List.getD_eq_getElem?_getD, List.getElem?_append_right (by omega),
        Nat.add_sub_cancel_left, List.getElem?_append_left (by omega)]
    rw [← Nat.add_assoc, insertAt, hget]
    split
    next hblank =>
      obtain ⟨m, hm, hpos, hle', hall, hlast⟩ := ih (by omega) (by omega)
      refine ⟨m, hm, hpos, by omega, fun i hmi hik => ?_, hlast⟩
      obtain hlt | rfl := Nat.lt_or_eq_of_le (Nat.le_of_lt_succ hik)
      . exact hall i hmi hlt
      . exact hblank.2
    next hkeep =>
      refine ⟨k + 1, by omega, by omega, Nat.le_refl _, fun i hmi hik => by omega, ?_⟩
      by_cases hzero : k = 0
      . exact .inl (by omega)
      . exact .inr fun hblank => hkeep ⟨by omega, hblank⟩

/-- A line that is put into a section. -/
theorem bodyKeyValues_insert {m : Nat} (hpos : 0 < m) (hm : m ≤ body.length)
    (hblank : ∀ i, m ≤ i → i < body.length → strip (body.getD i []) = []) (hmatch : matchKeyValue s = some kv)
    : bodyKeyValues (body.take m ++ s :: body.drop m) = bodyKeyValues body ++ [(kv, m)] := by
  obtain ⟨i, rfl⟩ : ∃ i, m = i + 1 := ⟨m - 1, by omega⟩
  have hdrop : ∀ line ∈ body.drop (i + 1), strip line = [] := by
    intro line hline
    obtain ⟨k, hk, rfl⟩ := List.getElem_of_mem hline
    rw [List.length_drop] at hk
    have hget := hblank (i + 1 + k) (by omega) (by omega)
    rw [List.getD_eq_getElem _ _ (by omega)] at hget
    rw [List.getElem_drop]
    exact hget
  cases body with
  | nil => simp at hm
  | cons x rest =>
    rw [List.length_cons] at hm
    rw [List.drop_succ_cons] at hdrop
    have hrest : keyValues rest 1 = keyValues (rest.take i) 1 := by
      nth_rewrite 1 [← List.take_append_drop i rest]
      rw [keyValues_append, keyValues_blank hdrop, List.append_nil]
    rw [bodyKeyValues, bodyKeyValues, List.take_succ_cons, List.drop_succ_cons, List.cons_append, List.tail_cons,
      List.tail_cons, keyValues_append, hrest, keyValues, hmatch, keyValues_blank hdrop, List.length_take,
      Nat.min_eq_left (by omega), Nat.add_comm 1 i]

theorem chunk_insert {m : Nat} (hpos : 0 < m) (hchunk : Chunk sectionMark body) (hmark : sectionMark s = none)
    : Chunk sectionMark (body.take m ++ s :: body.drop m) ∧ nameOf (body.take m ++ s :: body.drop m) = nameOf body := by
  obtain ⟨i, rfl⟩ : ∃ i, m = i + 1 := ⟨m - 1, by omega⟩
  cases hchunk with
  | mk hx hbody =>
    refine ⟨.mk hx fun line hline => ?_, rfl⟩
    obtain hline | hline := List.mem_append.mp hline
    . exact hbody line (List.mem_of_mem_take hline)
    . obtain rfl | hline := List.mem_cons.mp hline
      . exact hmark
      . exact hbody line (List.mem_of_mem_drop hline)

theorem closed_line {line stop : List Char} (hline : Plain line) (hstop : stop = ['\n'] ∨ stop = ['\r', '\n'])
    : Closed [line ++ stop] := by
  intro l hl
  rw [List.mem_singleton.mp hl]
  exact ⟨line, stop, rfl, hline, hstop⟩

theorem newlineFor_cases (text : List Char) : newlineFor text = ['\n'] ∨ newlineFor text = ['\r', '\n'] := by
  unfold newlineFor
  split
  . exact .inr rfl
  . exact .inl rfl

/-- The chunks of a list without lines. -/
theorem flatten_eq_nil {bodies : List (List (List Char))} (hchunk : ∀ body ∈ bodies, Chunk sectionMark body)
    (h : bodies.flatten = []) : bodies = [] := by
  cases bodies with
  | nil => rfl
  | cons body bodies =>
    rw [List.flatten_cons, List.append_eq_nil_iff] at h
    exact absurd h.1 (hchunk body List.mem_cons_self).ne_nil

/-- A section does not end with a blank line where the line is put at its end. -/
theorem last_not_blank {line : List Char} (hchunk : Chunk sectionMark body) (hline : body.getLast? = some line)
    (hlast : body.length = 1 ∨ strip (body.getD (body.length - 1) []) ≠ []) : strip line ≠ [] := by
  rw [List.getLast?_eq_getElem?] at hline
  obtain hlength | hne := hlast
  . cases hchunk with
    | mk hx _ =>
      rw [hlength] at hline
      obtain ⟨name, hname⟩ := Option.isSome_iff_exists.mp hx
      cases hline
      exact sectionMark_not_blank hname
  . rwa [List.getD_eq_getElem?_getD, hline] at hne

/-! ### A value is written into a section -/

/-- A value that is written into a section is read from it, and what else is read from the text is the same. -/
theorem upsertSectionValue_put {bodies : List (List (List Char))} (hended : EndedLines (splitLines text))
    (hchunked : Chunked sectionMark (splitLines text) before bodies) (hkey : Written key) (heq : '=' ∉ key)
    (hvalue : Written value)
    (hhead : ∀ items item, named cf bodies (cf.casefold name) = some items →
      lastItem cf items (cf.casefold key) = some item → Plain item.1.head)
    (hloose : ∀ items, named cf bodies (cf.casefold name) = some items → lastItem cf items (cf.casefold key) = none →
      Loose (splitLines text) → lastName cf bodies ≠ some (cf.casefold name))
    (h : upsertSectionValue cf text name key value = .ok out)
    : ∃ bodies' items items' item, named cf bodies (cf.casefold name) = some items
      ∧ Put cf (cf.casefold name) items' before bodies bodies' ∧ splitLines out = before ++ bodies'.flatten
      ∧ lastItem cf items' (cf.casefold key) = some item ∧ Plain item.1.head ∧ strip item.1.value = value
      ∧ otherItems cf items' (cf.casefold key) = otherItems cf items (cf.casefold key) := by
  unfold upsertSectionValue at h
  dsimp only at h
  obtain ⟨hnone, _⟩ | ⟨front, body, back, rfl, hname, hback, hfound⟩ := byName_eq cf hchunked (cf.casefold name)
  . rw [hnone] at h
    cases h
  . rw [hfound] at h
    have hchunk : Chunk sectionMark body := hchunked.chunk body (by simp)
    have hnamed : named cf (front ++ body :: back) (cf.casefold name) = some (bodyKeyValues body) := by
      rw [named_append, named_cons, named_none hback, if_pos hname.symm]
      rfl
    have hflatten (x : List (List Char)) : before ++ (front ++ x :: back).flatten
        = (before ++ front.flatten) ++ (x ++ back.flatten) := by simp
    have hlines : splitLines text = (before ++ front.flatten) ++ (body ++ back.flatten) := by
      rw [hchunked.list, hflatten]
    have hmem : ∀ l ∈ body, l ∈ splitLines text := fun l hl => by
      rw [hlines]
      simp [hl]
    simp only at h
    have hvalues := @sectionValues_body (before ++ front.flatten) back.flatten body cf (nameOf body)
      hchunk.ne_nil (cf.casefold key)
    rw [hlines, hvalues] at h
    cases hv : (bodyValues cf body).lookup (cf.casefold key) with
    | some found =>
      obtain ⟨v, j⟩ := found
      rw [hv] at h
      obtain ⟨kv, hrewrite, _, hkv, hreplace, hset⟩ := rewrite_line (before ++ front.flatten)
        back.flatten hv hvalue
      obtain ⟨hlast, hlast'⟩ := lastItem_rewrite hrewrite hv
      have hplain := hhead _ _ hnamed hlast
      simp only [Option.map_some, hreplace, bind, Except.bind, hset] at h
      cases h
      have hended' : EndedLines (before ++ (front ++ rewrite body j kv value :: back).flatten) := by
        have hold := hended
        rw [hlines] at hold
        rw [hflatten]
        refine hold.edit (List.rel_append (List.forall₂_same.mpr fun _ _ => .refl _)
          (List.rel_append ?_ (List.forall₂_same.mpr fun _ _ => .refl _)))
        exact sameEnd_rewrite hrewrite hended hmem hplain
      refine ⟨front ++ rewrite body j kv value :: back, bodyKeyValues body, _, _, hnamed,
        put_replace hchunked hname hback (hrewrite.chunk hchunk) ?_ hended' (loose_rewrite hrewrite hended hmem hplain),
        ?_, hlast', hplain, hvalue.strip_value, otherItems_rewrite hrewrite hkv⟩
      . rw [nameOf, hrewrite.key, ← nameOf, hname]
      . rw [← hflatten, splitLines_flatten (lines_of_ended hended')]
    | none =>
      rw [hv] at h
      have hnone : lastItem cf (bodyKeyValues body) (cf.casefold key) = none := by
        rw [bodyValues_lastItem] at hv
        simpa using hv
      obtain ⟨m, hm, hpos, hle, hblank, hlast⟩ := insertAt_body (before ++ front.flatten)
        (List.length_pos_of_ne_nil hchunk.ne_nil) (Nat.le_refl body.length) back.flatten
      obtain ⟨new, hnew⟩ : ∃ new, new = key ++ '=' :: (value ++ newlineFor text) := ⟨_, rfl⟩
      obtain ⟨kv, hkvdef⟩ : ∃ kv, kv = (⟨key ++ ['='], key, value, newlineFor text⟩ : KeyValue) := ⟨_, rfl⟩
      have hmatch : matchKeyValue new = some kv := by
        rw [hnew, hkvdef]
        exact matchKeyValue_eq_some.mpr (isKeyValue_line hkey heq hvalue (newlineFor_cases text))
      have hplain : Plain (key ++ ['=']) := hkey.plain.append (by decide)
      have hnewline : Closed [new] := by
        have hassoc : new = (key ++ ['='] ++ value) ++ newlineFor text := by simp [hnew]
        rw [hassoc]
        exact closed_line (hplain.append hvalue.plain) (newlineFor_cases text)
      have hmark : sectionMark new = none := by
        have hassoc : new = (key ++ ['=']) ++ (value ++ newlineFor text) := by simp [hnew]
        rw [hassoc]
        exact sectionMark_written hvalue (.inr (newlineFor_cases text))
      rw [← hnew] at h
      simp only [Option.map_none, hm] at h
      rw [List.take_append, List.drop_append] at h
      simp only [Nat.add_sub_cancel_left, List.take_of_length_le (Nat.le_add_right _ m),
        List.drop_eq_nil_of_le (Nat.le_add_right _ m), List.nil_append] at h
      rw [List.take_append_of_le_length hle, List.drop_append_of_le_length hle] at h
      cases h
      obtain ⟨hchunk', hname'⟩ := chunk_insert hpos hchunk hmark
      have hitems := bodyKeyValues_insert hpos hle hblank hmatch
      have hflatten' : before ++ (front ++ (body.take m ++ new :: body.drop m) :: back).flatten
          = (before ++ front.flatten ++ body.take m) ++ ([new] ++ (body.drop m ++ back.flatten)) := by simp
      have hold : EndedLines ((before ++ front.flatten ++ body.take m) ++ (body.drop m ++ back.flatten)) := by
        have hsplit : body ++ back.flatten = body.take m ++ (body.drop m ++ back.flatten) := by
          rw [← List.append_assoc, List.take_append_drop]
        rw [hlines, hsplit, ← List.append_assoc] at hended
        exact hended
      have hclosed : Closed (before ++ front.flatten ++ body.take m) := by
        by_cases hrest : body.drop m ++ back.flatten = []
        . -- the line is put at the end of the text
          obtain ⟨hdrop, hflat⟩ := List.append_eq_nil_iff.mp hrest
          have hback : back = [] := flatten_eq_nil (fun b hb => hchunked.chunk b (by simp [hb])) hflat
          have htake : body.take m = body := by
            have hsplit := List.take_append_drop m body
            rwa [hdrop, List.append_nil] at hsplit
          rw [hrest, List.append_nil] at hold
          have hall : splitLines text = before ++ front.flatten ++ body.take m := by
            rw [hlines, hflat, List.append_nil, htake]
          refine (closed_or_blank hold fun hl => ?_).resolve_right ?_
          . refine hloose _ hnamed hnone (by rwa [hall]) ?_
            rw [lastName, hback, List.getLast?_concat, Option.map_some, hname]
          . rintro ⟨init, line, hsplit, _, _, hstrip⟩
            have hlength : m = body.length := Nat.le_antisymm hle (List.drop_eq_nil_iff.mp hdrop)
            refine last_not_blank hchunk ?_ (hlength ▸ hlast) hstrip
            have hget := congrArg List.getLast? hsplit
            rwa [htake, List.getLast?_append_of_ne_nil _ hchunk.ne_nil, List.getLast?_concat] at hget
        . exact closed_of_ended hold hrest
      have hended' : EndedLines (before ++ (front ++ (body.take m ++ new :: body.drop m) :: back).flatten) := by
        rw [hflatten']
        exact hclosed.ended (hnewline.ended (hold.sublist (List.sublist_append_right _ _)))
      refine ⟨front ++ (body.take m ++ new :: body.drop m) :: back, bodyKeyValues body, _, (kv, m), hnamed,
        put_replace hchunked hname hback hchunk' (by rw [hname', hname]) hended' ?_, ?_, ?_, ?_, ?_, ?_⟩
      . intro hl
        by_cases hdrop : body.drop m = []
        . rw [hdrop, loose_append (by simp)] at hl
          exact absurd hl hnewline.not_loose
        . rw [← List.singleton_append, ← List.append_assoc, loose_append hdrop] at hl
          rw [← List.take_append_drop m body, loose_append hdrop]
          exact hl
      . rw [← splitLines_flatten (lines_of_ended hended'), hflatten']
        simp
      . rw [hitems, lastItem_concat, hkvdef, if_pos rfl]
      . rw [hkvdef]
        exact hplain
      . rw [hkvdef]
        exact hvalue.strip_value
      . rw [hitems, otherItems, List.filter_append, hkvdef]
        simp [otherItems]

end

end LelyRtt.Dcf
