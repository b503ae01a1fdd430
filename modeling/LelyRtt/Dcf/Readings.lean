import LelyRtt.Dcf.MasterBin
import LelyRtt.Dcf.Ranges

/-!
This module contains what is read from the sections of a DCF into which values are written: the last section
of a name, the lines that are put into a text, and the sections of the values of an object.
-/

namespace LelyRtt.Dcf

open Text

/-- What is read from the last section of a name. -/
def named (cf : CaseFold) (bodies : List (List (List Char))) (name : List Char) : Option (List (KeyValue × Nat)) :=
  (dictOf (bodies.map fun body => (cf.casefold (nameOf body), bodyKeyValues body))).lookup name

/-- The name of a section and what is read from it. -/
def reading (body : List (List Char)) : List Char × List (KeyValue × Nat) := (nameOf body, bodyKeyValues body)

/-- Every line has an end. -/
def Closed (lines : List (List Char)) : Prop :=
  ∀ line ∈ lines, ∃ body stop, line = body ++ stop ∧ Plain body ∧ (stop = ['\n'] ∨ stop = ['\r', '\n'])

/-- The last line has no end, and is not blank. -/
def Loose (lines : List (List Char)) : Prop :=
  ∃ line ∈ lines.getLast?, Plain line ∧ strip line ≠ []

section

variable {cf : CaseFold} {lines lines' before body body' line : List (List Char)}
  {bodies front back : List (List (List Char))} {name name' : List Char} {s : Section}

/-! ### Lines that are put into a text -/

theorem Closed.append (h : Closed lines) (h' : Closed lines') : Closed (lines ++ lines') := by
  intro line hline
  obtain hline | hline := List.mem_append.mp hline
  . exact h line hline
  . exact h' line hline

theorem Closed.ended (h : Closed lines) (h' : EndedLines lines') : EndedLines (lines ++ lines') := by
  induction lines with
  | nil => exact h'
  | cons line lines ih =>
    obtain ⟨body, stop, rfl, hbody, hstop⟩ := h line List.mem_cons_self
    exact .cons hbody hstop (ih fun l hl => h l (List.mem_cons_of_mem _ hl))

/-- The lines before another one have an end. -/
theorem closed_of_ended (h : EndedLines (lines ++ lines')) (hne : lines' ≠ []) : Closed lines := by
  induction lines with
  | nil => exact fun _ hl => nomatch hl
  | cons line lines ih =>
    rw [List.cons_append] at h
    generalize hrest : lines ++ lines' = rest at h ih
    cases h with
    | last => simp [hne] at hrest
    | cons hbody hstop hended =>
      intro l hl
      obtain rfl | hl := List.mem_cons.mp hl
      . exact ⟨_, _, rfl, hbody, hstop⟩
      . exact ih hended l hl

/-- The lines of a text that is not loose have an end, or the last one is blank. -/
theorem closed_or_blank (h : EndedLines lines) (hloose : ¬Loose lines)
    : Closed lines ∨ ∃ init line, lines = init ++ [line] ∧ Closed init ∧ Plain line ∧ strip line = [] := by
  obtain rfl | ⟨init, line, rfl⟩ := List.eq_nil_or_concat' lines
  . exact .inl fun _ hl => nomatch hl
  . have hinit : Closed init := closed_of_ended h (by simp)
    obtain ⟨body, stop, rfl, hbody, rfl | hstop⟩ := h.mem (List.mem_concat_self : line ∈ init ++ [line])
    . rw [List.append_nil] at hloose ⊢
      refine .inr ⟨init, body, rfl, hinit, hbody, ?_⟩
      by_contra hne
      exact hloose ⟨body, by simp, hbody, hne⟩
    . refine .inl (hinit.append fun l hl => ?_)
      rw [List.mem_singleton.mp hl]
      exact ⟨body, stop, rfl, hbody, hstop⟩

/-! ### The last section of a name -/

theorem named_append : named cf (front ++ back) name = (named cf back name).or (named cf front name) := by
  rw [named, named, named, lookup_dictOf, lookup_dictOf, lookup_dictOf, List.map_append, List.reverse_append,
    List.lookup_append]

theorem named_cons : named cf (body :: bodies) name
    = (named cf bodies name).or (if name = cf.casefold (nameOf body) then some (bodyKeyValues body) else none) := by
  rw [← List.singleton_append, named_append]
  congr 1
  rw [named, lookup_dictOf, List.map_singleton, List.reverse_singleton, lookup_cons_eq]
  rfl

theorem named_none (h : ∀ body ∈ bodies, cf.casefold (nameOf body) ≠ name) : named cf bodies name = none := by
  induction bodies with
  | nil => rfl
  | cons body bodies ih =>
    rw [named_cons, ih fun b hb => h b (List.mem_cons_of_mem _ hb), if_neg fun heq => h body List.mem_cons_self heq.symm]
    rfl

theorem chunkSections_append (n : Nat) (front back : List (List (List Char)))
    : chunkSections n (front ++ back) = chunkSections n front ++ chunkSections (n + front.flatten.length) back := by
  induction front generalizing n with
  | nil => rfl
  | cons body front ih =>
    rw [List.cons_append, chunkSections, chunkSections, ih, List.cons_append, List.flatten_cons, List.length_append,
      Nat.add_assoc]

variable (bodies) in
theorem names_chunkSections (n : Nat) : (chunkSections n bodies).map (·.name) = bodies.map nameOf := by
  induction bodies generalizing n with
  | nil => rfl
  | cons body bodies ih => rw [chunkSections, List.map_cons, List.map_cons, ih]

/-- The sections have a last one with a property, if any. -/
theorem exists_last {α : Type} (p : α → Prop) (l : List α)
    : (∀ x ∈ l, ¬p x) ∨ ∃ a x b, l = a ++ x :: b ∧ p x ∧ ∀ y ∈ b, ¬p y := by
  induction l with
  | nil => exact .inl fun _ hx => nomatch hx
  | cons x l ih =>
    obtain hnone | ⟨a, y, b, rfl, hy, hb⟩ := ih
    . by_cases hx : p x
      . exact .inr ⟨[], x, l, rfl, hx, hnone⟩
      . exact .inl (by simpa [hx] using hnone)
    . exact .inr ⟨x :: a, y, b, rfl, hy, hb⟩

variable (cf) in
/-- The section that is looked up by its name is the last one of it. -/
theorem byName_eq (hchunked : Chunked sectionMark lines before bodies) (name : List Char)
    : ((byName cf lines).lookup name = none ∧ ∀ body ∈ bodies, cf.casefold (nameOf body) ≠ name)
      ∨ ∃ front body back, bodies = front ++ body :: back ∧ cf.casefold (nameOf body) = name
        ∧ (∀ body ∈ back, cf.casefold (nameOf body) ≠ name)
        ∧ (byName cf lines).lookup name = some ⟨nameOf body, (before ++ front.flatten).length,
          (before ++ front.flatten).length + body.length⟩ := by
  have hlookup (n : Nat) {bodies : List (List (List Char))} (h : ∀ body ∈ bodies, cf.casefold (nameOf body) ≠ name)
      : (((chunkSections n bodies).map fun s => (cf.casefold s.name, s)).reverse).lookup name = none := by
    rw [List.lookup_eq_none_iff]
    intro entry hentry
    obtain ⟨s, hs, rfl⟩ := List.mem_map.mp (List.mem_reverse.mp hentry)
    have hname : s.name ∈ bodies.map nameOf := by
      rw [← names_chunkSections _ n]
      exact List.mem_map_of_mem hs
    obtain ⟨body, hbody, heq⟩ := List.mem_map.mp hname
    have hne := h body hbody
    rw [heq] at hne
    simpa using fun heq : name = cf.casefold s.name => hne heq.symm
  rw [byName, collectSections_chunked hchunked, lookup_dictOf]
  obtain hnone | ⟨front, body, back, rfl, hbody, hback⟩ :=
    exists_last (fun body => cf.casefold (nameOf body) = name) bodies
  . exact .inl ⟨hlookup _ hnone, hnone⟩
  . refine .inr ⟨front, body, back, rfl, hbody, hback, ?_⟩
    rw [chunkSections_append, chunkSections, List.map_append, List.map_cons, List.reverse_append, List.reverse_cons,
      List.lookup_append, List.lookup_append, hlookup _ hback, lookup_cons_eq, if_pos hbody.symm, List.length_append]
    rfl

theorem loose_append (hne : lines' ≠ []) : Loose (lines ++ lines') ↔ Loose lines' := by
  rw [Loose, Loose, List.getLast?_append_of_ne_nil _ hne]

theorem Closed.not_loose (h : Closed lines) : ¬Loose lines := by
  rintro ⟨line, hline, hplain, _⟩
  obtain ⟨body, stop, rfl, _, hstop⟩ := h line (List.mem_of_mem_getLast? hline)
  have hboundary := hplain '\n' (by obtain rfl | rfl := hstop <;> simp)
  exact absurd hboundary (by decide)

end

/-! ### Sections that are put into a text -/

/-- The name of the last section. -/
def lastName (cf : CaseFold) (bodies : List (List (List Char))) : Option (List Char) :=
  bodies.getLast?.map fun body => cf.casefold (nameOf body)

/-- The section `name` has been put into a text, with what is read from it. -/
structure Put (cf : CaseFold) (name : List Char) (items : List (KeyValue × Nat)) (before : List (List Char))
    (bodies bodies' : List (List (List Char))) : Prop where
  unmarked : ∀ line ∈ before, sectionMark line = none
  chunk : ∀ body ∈ bodies', Chunk sectionMark body
  ended : EndedLines (before ++ bodies'.flatten)
  same : ∀ name', name' ≠ name → named cf bodies' name' = named cf bodies name'
  found : named cf bodies' name = some items
  others : (bodies'.filter fun body => cf.casefold (nameOf body) ≠ name).map reading
    = (bodies.filter fun body => cf.casefold (nameOf body) ≠ name).map reading
  loose : Loose (before ++ bodies'.flatten) → Loose (before ++ bodies.flatten) ∧ lastName cf bodies' = lastName cf bodies

section

variable {cf : CaseFold} {lines before body body' new : List (List Char)} {front back : List (List (List Char))}
  {name : List Char}

theorem Put.chunked {items : List (KeyValue × Nat)} {bodies bodies' : List (List (List Char))}
    (h : Put cf name items before bodies bodies') : Chunked sectionMark (before ++ bodies'.flatten) before bodies' :=
  ⟨rfl, h.unmarked, h.chunk⟩

/-- A section is replaced. -/
theorem put_replace (hchunked : Chunked sectionMark lines before (front ++ body :: back))
    (hname : cf.casefold (nameOf body) = name) (hback : ∀ body ∈ back, cf.casefold (nameOf body) ≠ name)
    (hchunk : Chunk sectionMark body') (hname' : cf.casefold (nameOf body') = name)
    (hended : EndedLines (before ++ (front ++ body' :: back).flatten)) (hloose : Loose body' → Loose body)
    : Put cf name (bodyKeyValues body') before (front ++ body :: back) (front ++ body' :: back) := by
  refine ⟨hchunked.before, fun b hb => ?_, hended, fun name' hne => ?_, ?_, ?_, fun h => ?_⟩
  . obtain hb | hb := List.mem_append.mp hb
    . exact hchunked.chunk b (List.mem_append_left _ hb)
    . obtain rfl | hb := List.mem_cons.mp hb
      . exact hchunk
      . exact hchunked.chunk b (List.mem_append_right _ (List.mem_cons_of_mem _ hb))
  . rw [named_append, named_cons, named_append, named_cons, hname, hname', if_neg hne, if_neg hne]
  . rw [named_append, named_cons, named_none hback, hname', if_pos rfl]
    rfl
  . simp [List.filter_append, hname, hname']
  . have hflatten (x : List (List Char)) : before ++ (front ++ x :: back).flatten
        = (before ++ front.flatten) ++ (x ++ back.flatten) := by simp
    have hbody : body ≠ [] := (hchunked.chunk body (by simp)).ne_nil
    rw [hflatten, loose_append (by simp [hchunk.ne_nil])] at h
    rw [hflatten, loose_append (by simp [hbody])]
    obtain rfl | hne := eq_or_ne back []
    . rw [List.flatten_nil, List.append_nil] at h ⊢
      refine ⟨hloose h, ?_⟩
      rw [lastName, lastName, List.getLast?_append_of_ne_nil _ (by simp), List.getLast?_append_of_ne_nil _ (by simp)]
      simp [hname, hname']
    . obtain ⟨x, rest, rfl⟩ := List.exists_cons_of_ne_nil hne
      have hx : x ≠ [] := (hchunked.chunk x (by simp)).ne_nil
      rw [loose_append (by simp [hx])] at h ⊢
      refine ⟨h, ?_⟩
      rw [lastName, lastName, List.getLast?_append_of_ne_nil _ (by simp), List.getLast?_append_of_ne_nil _ (by simp),
        List.getLast?_cons_cons, List.getLast?_cons_cons]

/-- A section is put behind another one. -/
theorem put_insert (hchunked : Chunked sectionMark lines before (front ++ body :: back))
    (hnone : ∀ b ∈ front ++ body :: back, cf.casefold (nameOf b) ≠ name) (hreading : reading body' = reading body)
    (hbody' : Chunk sectionMark body') (hnew : Chunk sectionMark new) (hname : cf.casefold (nameOf new) = name)
    (hended : EndedLines (before ++ (front ++ body' :: new :: back).flatten)) (hclosed : ¬Loose new)
    : Put cf name (bodyKeyValues new) before (front ++ body :: back) (front ++ body' :: new :: back) := by
  obtain ⟨hname', hitems⟩ := Prod.mk.inj hreading
  have hbody : cf.casefold (nameOf body) ≠ name := hnone body (by simp)
  have hback : ∀ b ∈ back, cf.casefold (nameOf b) ≠ name := fun b hb => hnone b (by simp [hb])
  refine ⟨hchunked.before, fun b hb => ?_, hended, fun name' hne => ?_, ?_, ?_, fun h => ?_⟩
  . obtain hb | hb := List.mem_append.mp hb
    . exact hchunked.chunk b (List.mem_append_left _ hb)
    . obtain rfl | hb := List.mem_cons.mp hb
      . exact hbody'
      . obtain rfl | hb := List.mem_cons.mp hb
        . exact hnew
        . exact hchunked.chunk b (List.mem_append_right _ (List.mem_cons_of_mem _ hb))
  . rw [named_append, named_cons, named_cons, named_append, named_cons, hname, hname', hitems, if_neg hne, Option.or_none]
  . rw [named_append, named_cons, named_cons, named_none hback, hname, if_pos rfl]
    rfl
  . simp [List.filter_append, hname, hname', hbody, hreading]
  . have hflatten : before ++ (front ++ body' :: new :: back).flatten
        = (before ++ (front ++ [body']).flatten) ++ (new ++ back.flatten) := by simp
    have hflatten₀ : before ++ (front ++ body :: back).flatten
        = (before ++ (front ++ [body]).flatten) ++ back.flatten := by simp
    rw [hflatten, loose_append (by simp [hnew.ne_nil])] at h
    obtain rfl | hne := eq_or_ne back []
    . rw [List.flatten_nil, List.append_nil] at h
      exact absurd h hclosed
    . obtain ⟨x, rest, rfl⟩ := List.exists_cons_of_ne_nil hne
      have hx : x ≠ [] := (hchunked.chunk x (by simp)).ne_nil
      rw [loose_append (by simp [hx])] at h
      rw [hflatten₀, loose_append (by simp [hx])]
      refine ⟨h, ?_⟩
      rw [lastName, lastName, List.getLast?_append_of_ne_nil _ (by simp), List.getLast?_append_of_ne_nil _ (by simp),
        List.getLast?_cons_cons, List.getLast?_cons_cons, List.getLast?_cons_cons]

end

end LelyRtt.Dcf
