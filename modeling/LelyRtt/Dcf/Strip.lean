import LelyRtt.Dcf.Sections
import LelyRtt.Text.Digits
import Mathlib.Data.List.Flatten
import Mathlib.Data.List.Forall2

/-!
This module contains the edits of a DCF by remembered lines: a number that is written is read back, a
line is replaced in the section it was found in, and the reserved sub-indexes of TPDOs are removed.
-/

namespace LelyRtt.Dcf

open Text

/-! ### Numbers -/

theorem decimal_spec (n : Nat)
    : natOfDigits 10 (decimal n) = n ∧ decimal n ≠ [] ∧ ∀ c ∈ decimal n, c.isDigit = true := by
  have hdigit : ∀ d : Fin 10, hexDigit d.1.digitChar = some d.1 ∧ d.1.digitChar.isDigit = true := by decide
  obtain ⟨hvalue, hne, hall⟩ := toDigits_spec (f := id) (by decide) (fun d hd => (hdigit ⟨d, hd⟩).1) n
  rw [List.map_id] at hvalue hne hall
  refine ⟨hvalue, hne, fun c hc => ?_⟩
  obtain ⟨d, hd, rfl⟩ := hall c hc
  exact (hdigit ⟨d, hd⟩).2

theorem written_of_digits {s : List Char} (hne : s ≠ []) (h : ∀ c ∈ s, c.isDigit = true) : Written s := by
  refine ⟨hne, fun c hc => ?_⟩
  have hdigit := h c hc
  simp only [Char.isDigit, Bool.and_eq_true, decide_eq_true_eq] at hdigit
  have hrange : 48 ≤ c.toNat ∧ c.toNat ≤ 57 := hdigit
  refine ⟨?_, ?_⟩
  . simp only [isSpace, decide_eq_false_iff_not]
    omega
  . rintro rfl
    exact absurd hrange (by decide)

theorem written_decimal (n : Nat) : Written (decimal n) :=
  written_of_digits (decimal_spec n).2.1 (decimal_spec n).2.2

/-- A number that is written is read back. -/
theorem parseInt_decimal (n : Nat) : parseInt (decimal n) = some n := by
  obtain ⟨hvalue, hne, hall⟩ := decimal_spec n
  have hx (c : Char) (hc : c.isDigit = false) (tail : List Char) : decimal n ≠ '0' :: c :: tail := by
    intro heq
    have hdigit := hall c (by rw [heq]; simp)
    rw [hc] at hdigit
    cases hdigit
  rw [parseInt, (written_decimal n).strip_value]
  split
  next digits heq => exact absurd heq (hx 'x' (by decide) digits)
  next digits heq => exact absurd heq (hx 'X' (by decide) digits)
  next => rw [if_pos ⟨hne, List.all_eq_true.mpr hall⟩, hvalue]

/-! ### A line of a section -/

section

variable {cf : CaseFold} {before after body : List (List Char)} {k v value : List Char} {j : Nat}

variable (before after) in
/-- A value that is found is replaced in its line. -/
theorem rewrite_line (h : (bodyValues cf body).lookup k = some (v, j)) (hvalue : Written value)
    : ∃ kv, Rewrite body j kv value ∧ v = strip kv.value ∧ cf.casefold kv.key = k
      ∧ replaceKeyValue ((before ++ (body ++ after)).getD (before.length + j) []) value
        = .ok (kv.head ++ (value ++ kv.stop))
      ∧ (before ++ (body ++ after)).set (before.length + j) (kv.head ++ (value ++ kv.stop))
        = before ++ (rewrite body j kv value ++ after) := by
  obtain ⟨hpos, line, kv, hline, hmatch, hkey, hv⟩ := bodyValues_lookup h
  obtain ⟨hj, hget⟩ := List.getElem?_eq_some_iff.mp hline
  refine ⟨kv, ⟨hpos, ⟨line, hline, hmatch⟩, hvalue⟩, hv, hkey, ?_, ?_⟩
  . have hgetD : (before ++ (body ++ after)).getD (before.length + j) [] = line := by
      rw [List.getD_eq_getElem?_getD, List.getElem?_append_right (by omega), Nat.add_sub_cancel_left,
        List.getElem?_append_left hj, hline]
      rfl
    rw [hgetD, replaceKeyValue, hmatch]
  . rw [List.set_append_right _ _ (by omega), Nat.add_sub_cancel_left, List.set_append_left _ _ hj]
    rfl

end

/-! ### The sections of a text while it is edited -/

section

variable {α γ : Type} {R : α → α → Prop} {l l' : List α}

theorem exists_of_forall₂ {y : α} (h : List.Forall₂ R l l') (hy : y ∈ l') : ∃ x ∈ l, R x y := by
  induction h with
  | nil => cases hy
  | cons hxy _ ih =>
    obtain rfl | hy := List.mem_cons.mp hy
    . exact ⟨_, List.mem_cons_self, hxy⟩
    . obtain ⟨x, hx, hxy⟩ := ih hy
      exact ⟨x, List.mem_cons_of_mem _ hx, hxy⟩

theorem map_of_forall₂ {f : α → γ} (h : List.Forall₂ R l l') (hf : ∀ x y, R x y → f y = f x) : l'.map f = l.map f := by
  induction h with
  | nil => rfl
  | cons hxy _ ih => rw [List.map_cons, List.map_cons, hf _ _ hxy, ih]

end

section

variable {lines before : List (List Char)} {bodies bodies' : List (List (List Char))} {k n : Nat} {s : Section}

theorem chunkSections_length (n : Nat) (bodies : List (List (List Char)))
    : (chunkSections n bodies).length = bodies.length := by
  induction bodies generalizing n with
  | nil => rfl
  | cons body bodies ih => rw [chunkSections, List.length_cons, ih, List.length_cons]

theorem chunkSections_getElem {body : List (List Char)} (h : bodies[k]? = some body)
    : (chunkSections n bodies)[k]? = some ⟨nameOf body, n + (bodies.take k).flatten.length,
      n + (bodies.take k).flatten.length + body.length⟩ := by
  induction bodies generalizing n k with
  | nil => simp at h
  | cons body' bodies ih =>
    cases k with
    | zero =>
      obtain rfl : body' = body := Option.some_inj.mp h
      rfl
    | succ k =>
      rw [List.getElem?_cons_succ] at h
      rw [chunkSections, List.getElem?_cons_succ, ih h]
      simp only [List.take_succ_cons, List.flatten_cons, List.length_append, Option.some_inj, Section.mk.injEq,
        true_and]
      omega

/-- The sections in the order of their lines. -/
theorem chunkSections_pairwise (h : ∀ body ∈ bodies, Chunk sectionMark body)
    : (chunkSections n bodies).Pairwise fun s t => s.start < t.start := by
  induction bodies generalizing n with
  | nil => exact .nil
  | cons body bodies ih =>
    have hrest : ∀ body ∈ bodies, Chunk sectionMark body := fun b hb => h b (List.mem_cons_of_mem _ hb)
    rw [chunkSections, List.pairwise_cons]
    refine ⟨fun t ht => ?_, ih hrest⟩
    obtain ⟨i, hi⟩ := List.mem_iff_getElem?.mp ht
    obtain ⟨hlt, _⟩ := List.getElem?_eq_some_iff.mp hi
    rw [chunkSections_length] at hlt
    have hbody := chunkSections_getElem (n := n + body.length) (List.getElem?_eq_getElem hlt)
    rw [hi] at hbody
    cases hbody
    have hpos : 0 < body.length := List.length_pos_of_ne_nil (h body List.mem_cons_self).ne_nil
    simp only
    omega

/-- Sections with the same names and lengths. -/
def Evolved (bodies bodies' : List (List (List Char))) : Prop :=
  List.Forall₂ (fun b b' => b'.length = b.length ∧ Text.key sectionMark b' = Text.key sectionMark b) bodies bodies'

theorem Evolved.chunkSections (h : Evolved bodies bodies') (n : Nat)
    : chunkSections n bodies' = Dcf.chunkSections n bodies := by
  induction h generalizing n with
  | nil => rfl
  | cons hbody _ ih => rw [Dcf.chunkSections, Dcf.chunkSections, nameOf, nameOf, hbody.1, hbody.2, ih]

/-- The lines of a section among all lines. -/
theorem section_split (hs : (chunkSections before.length bodies)[k]? = some s)
    : ∃ body front back, bodies[k]? = some body ∧ s = ⟨nameOf body, front.length, front.length + body.length⟩
      ∧ front = before ++ (bodies.take k).flatten
      ∧ before ++ bodies.flatten = front ++ (body ++ back)
      ∧ ∀ body', before ++ (bodies.set k body').flatten = front ++ (body' ++ back) := by
  obtain ⟨hlt, _⟩ := List.getElem?_eq_some_iff.mp hs
  rw [chunkSections_length] at hlt
  have hbody := List.getElem?_eq_getElem hlt
  rw [chunkSections_getElem hbody] at hs
  cases hs
  have hsplit : bodies = bodies.take k ++ bodies[k] :: bodies.drop (k + 1) := by
    rw [List.cons_getElem_drop_succ, List.take_append_drop]
  refine ⟨bodies[k], before ++ (bodies.take k).flatten, (bodies.drop (k + 1)).flatten, hbody, ?_, rfl, ?_, ?_⟩
  . simp
  . have hflatten := congrArg List.flatten hsplit
    rw [List.flatten_append, List.flatten_cons] at hflatten
    rw [hflatten]
    simp
  . intro body'
    rw [List.set_eq_take_append_cons_drop, if_pos hlt]
    simp

end

/-! ### Removal of the reserved sub-indexes -/

/-- The section of the object that loses the reserved sub-index of a section. -/
def parentOf (cf : CaseFold) (parents : List (List Char × Section)) (s : Section) : Option Section :=
  (reservedObject s.name).bind fun object => parents.lookup (cf.casefold object)

/-- The number of sections that `parent` loses. -/
def removedFrom (cf : CaseFold) (parents : List (List Char × Section)) (sections : List Section) (parent : Section)
    : Nat :=
  sections.countP fun s => parentOf cf parents s = some parent

/-- The section whose `SubNumber` is lowered by `r`. -/
inductive Lowered (cf : CaseFold) : Nat → List (List Char) → List (List Char) → Prop
  | keep (body : List (List Char)) : Lowered cf 0 body body
  | lower {r j n : Nat} {body : List (List Char)} {v : List Char} {kv : KeyValue} :
      (bodyValues cf body).lookup "subnumber".toList = some (v, j) → parseInt v = some n → 0 < r → r ≤ n →
      Rewrite body j kv (decimal (n - r)) → Lowered cf r body (rewrite body j kv (decimal (n - r)))

section

variable {cf : CaseFold} {before : List (List Char)} {bodies₀ bodies : List (List (List Char))}
  {body body' : List (List Char)} {r j n k : Nat} {v value : List Char} {kv : KeyValue}

theorem rewrite_rewrite {kv' : KeyValue} {value' : List Char} (h : Rewrite body j kv value)
    (hkv : matchKeyValue (kv.head ++ (value ++ kv.stop)) = some kv')
    : rewrite (rewrite body j kv value) j kv' value' = rewrite body j kv value' := by
  rw [h.match] at hkv
  cases hkv
  rw [rewrite, rewrite, rewrite, List.set_set]

/-- A section is lowered once more. -/
theorem Lowered.next (h : Lowered cf r body body') (hv : (bodyValues cf body').lookup "subnumber".toList = some (v, j))
    (hn : parseInt v = some (n + 1)) (hrewrite : Rewrite body' j kv (decimal n))
    : Lowered cf (r + 1) body (rewrite body' j kv (decimal n)) := by
  cases h with
  | keep =>
    have hlower : Lowered cf 1 body (rewrite body j kv (decimal (n + 1 - 1))) :=
      .lower hv hn (by decide) (by omega) (by rwa [Nat.add_sub_cancel])
    rwa [Nat.add_sub_cancel] at hlower
  | @lower _ j₀ n₀ _ v₀ kv₀ hv₀ hn₀ hpos hle hrewrite₀ =>
    rw [hrewrite₀.bodyValues, hv₀, Option.map_some] at hv
    simp only [if_true, Option.some_inj, Prod.mk.injEq] at hv
    obtain ⟨rfl, rfl⟩ := hv
    rw [parseInt_decimal] at hn
    have hsub : n₀ - r = n + 1 := Option.some_inj.mp hn
    have hn' : n = n₀ - (r + 1) := by omega
    obtain ⟨line, hline, hmatch⟩ := hrewrite.line
    obtain ⟨line₀, hline₀, _⟩ := hrewrite₀.line
    obtain ⟨hj, _⟩ := List.getElem?_eq_some_iff.mp hline₀
    rw [rewrite, List.getElem?_set_self hj] at hline
    cases hline
    rw [rewrite_rewrite hrewrite₀ hmatch, hn']
    obtain ⟨line₀, hline₀, hmatch₀⟩ := hrewrite₀.line
    exact .lower hv₀ hn₀ (by omega) (by omega) ⟨hrewrite₀.pos, ⟨line₀, hline₀, hmatch₀⟩, written_decimal _⟩

theorem Lowered.evolved (h : Lowered cf r body body')
    : body'.length = body.length ∧ Text.key sectionMark body' = Text.key sectionMark body := by
  cases h with
  | keep => exact ⟨rfl, rfl⟩
  | lower _ _ _ _ hrewrite => exact ⟨length_rewrite, hrewrite.key⟩

theorem Lowered.chunk (h : Lowered cf r body body') (hchunk : Chunk sectionMark body)
    : Chunk sectionMark body' := by
  cases h with
  | keep => exact hchunk
  | lower _ _ _ _ hrewrite => exact hrewrite.chunk hchunk

/-- What the loop has made of the sections for those in `done`. -/
structure Stripped (cf : CaseFold) (parents : List (List Char × Section)) (start : Nat)
    (bodies₀ bodies : List (List (List Char))) (done removals : List Section) : Prop where
  length : bodies.length = bodies₀.length
  body : ∀ (k : Nat) (s : Section) (body₀ : List (List Char)), (chunkSections start bodies₀)[k]? = some s →
    bodies₀[k]? = some body₀ → ∃ body : List (List Char), bodies[k]? = some body ∧ Lowered cf (removedFrom cf parents done s) body₀ body
  removals : removals = done.filter fun s => (reservedObject s.name).isSome

theorem Stripped.lowered {parents : List (List Char × Section)} {start : Nat} {done removals : List Section}
    (h : Stripped cf parents start bodies₀ bodies done removals)
    : List.Forall₂ (fun body₀ body => ∃ r, Lowered cf r body₀ body) bodies₀ bodies := by
  refine List.forall₂_of_length_eq_of_get h.length.symm fun i hi hi' => ?_
  have hget := List.getElem?_eq_getElem hi
  obtain ⟨body, hbody, hlowered⟩ := h.body i _ _ (chunkSections_getElem hget) hget
  rw [List.getElem?_eq_getElem hi'] at hbody
  rw [List.get_eq_getElem, List.get_eq_getElem, Option.some_inj.mp hbody]
  exact ⟨_, hlowered⟩

theorem Stripped.evolved {parents : List (List Char × Section)} {start : Nat} {done removals : List Section}
    (h : Stripped cf parents start bodies₀ bodies done removals) : Evolved bodies₀ bodies :=
  h.lowered.imp fun _ _ ⟨_, hlowered⟩ => hlowered.evolved

theorem Stripped.chunk {parents : List (List Char × Section)} {start : Nat} {done removals : List Section}
    (h : Stripped cf parents start bodies₀ bodies done removals) (hchunk : ∀ body ∈ bodies₀, Chunk sectionMark body)
    : ∀ body ∈ bodies, Chunk sectionMark body := by
  intro body hbody
  obtain ⟨body₀, hbody₀, _, hlowered⟩ := exists_of_forall₂ h.lowered hbody
  exact hlowered.chunk (hchunk body₀ hbody₀)

/-- The sections of a text are different. -/
theorem chunkSections_inj {start i i' : Nat} {s : Section} (h : ∀ body ∈ bodies, Chunk sectionMark body)
    (hi : (chunkSections start bodies)[i]? = some s) (hi' : (chunkSections start bodies)[i']? = some s) : i = i' := by
  have hpairwise := List.pairwise_iff_getElem.mp (chunkSections_pairwise (n := start) h)
  obtain ⟨hlt, hget⟩ := List.getElem?_eq_some_iff.mp hi
  obtain ⟨hlt', hget'⟩ := List.getElem?_eq_some_iff.mp hi'
  obtain hless | heq | hless := Nat.lt_trichotomy i i'
  . have hstart := hpairwise i i' hlt hlt' hless
    rw [hget, hget'] at hstart
    exact absurd hstart (Nat.lt_irrefl _)
  . exact heq
  . have hstart := hpairwise i' i hlt' hlt hless
    rw [hget, hget'] at hstart
    exact absurd hstart (Nat.lt_irrefl _)

theorem mem_byName {lines : List (List Char)} {name : List Char} {s : Section}
    (h : (byName cf lines).lookup name = some s) : s ∈ collectSections lines ∧ cf.casefold s.name = name := by
  obtain ⟨t, ht, heq⟩ := List.mem_map.mp (mem_of_lookup h)
  cases heq
  exact ⟨ht, rfl⟩

/-- One more section is looked at. -/
theorem Stripped.step {lines lines' : List (List Char)} {done removals removals' : List Section} {s : Section}
    (hchunked : Chunked sectionMark lines before bodies₀)
    (h : Stripped cf (byName cf lines) before.length bodies₀ bodies done removals)
    (hstep : stripSection cf (byName cf lines) (before ++ bodies.flatten, removals) s = .ok (lines', removals'))
    : ∃ bodies', lines' = before ++ bodies'.flatten
      ∧ Stripped cf (byName cf lines) before.length bodies₀ bodies' (done ++ [s]) removals' := by
  have hcount (p : Section) : removedFrom cf (byName cf lines) (done ++ [s]) p
      = removedFrom cf (byName cf lines) done p + if parentOf cf (byName cf lines) s = some p then 1 else 0 := by
    rw [removedFrom, List.countP_append, List.countP_singleton]
    simp only [decide_eq_true_eq]
    rfl
  unfold stripSection at hstep
  cases hreserved : reservedObject s.name with
  | none =>
    rw [hreserved] at hstep
    cases hstep
    refine ⟨bodies, rfl, h.length, fun k t body₀ ht hbody₀ => ?_, ?_⟩
    . have hnone : parentOf cf (byName cf lines) s = none := by rw [parentOf, hreserved]; rfl
      rw [hcount, hnone, if_neg (by simp)]
      exact h.body k t body₀ ht hbody₀
    . rw [h.removals, List.filter_append]
      simp [hreserved]
  | some object =>
    rw [hreserved] at hstep
    simp only at hstep
    cases hparent : (byName cf lines).lookup (cf.casefold object) with
    | none =>
      rw [hparent] at hstep
      cases hstep
    | some parent =>
      rw [hparent] at hstep
      simp only at hstep
      have hparentOf : parentOf cf (byName cf lines) s = some parent := by
        rw [parentOf, hreserved, Option.bind_some, hparent]
      obtain ⟨hmem, _⟩ := mem_byName hparent
      rw [collectSections_chunked hchunked] at hmem
      obtain ⟨kp, hkp⟩ := List.mem_iff_getElem?.mp hmem
      have hkp' := hkp
      rw [← h.evolved.chunkSections] at hkp'
      obtain ⟨body, front, back, hbody, hsection, _, hlines, hset⟩ := section_split hkp'
      obtain ⟨hlt, _⟩ := List.getElem?_eq_some_iff.mp hbody
      have hbody₀ := List.getElem?_eq_getElem (h.length ▸ hlt : kp < bodies₀.length)
      obtain ⟨body', hbody', hlowered⟩ := h.body kp parent _ hkp hbody₀
      obtain rfl : body = body' := Option.some_inj.mp (hbody.symm.trans hbody')
      have hne : body ≠ [] := (hlowered.chunk (hchunked.chunk _ (List.mem_of_getElem? hbody₀))).ne_nil
      rw [hlines, hsection] at hstep
      simp only [sectionValues_body _ hne] at hstep
      cases hvalue : (bodyValues cf body).lookup "subnumber".toList with
      | none =>
        rw [hvalue] at hstep
        cases hstep
      | some found =>
        obtain ⟨v, j⟩ := found
        rw [hvalue] at hstep
        simp only [Option.map_some] at hstep
        split at hstep
        next => cases hstep
        next => cases hstep
        next count hparse =>
          obtain ⟨kv, hrewrite, _, _, hreplace, hwritten⟩ := rewrite_line front back hvalue
            (written_decimal count)
          rw [hreplace] at hstep
          cases hstep
          refine ⟨bodies.set kp (rewrite body j kv (decimal count)), ?_, ?_, ?_, ?_⟩
          . rw [hwritten, hset]
          . rw [List.length_set, h.length]
          . intro k t body₁ ht hbody₁
            rw [hcount, hparentOf]
            by_cases heq : kp = k
            . subst heq
              obtain rfl : parent = t := Option.some_inj.mp (hkp.symm.trans ht)
              obtain rfl := Option.some_inj.mp (hbody₀.symm.trans hbody₁)
              refine ⟨_, List.getElem?_set_self hlt, ?_⟩
              rw [if_pos rfl]
              exact hlowered.next hvalue hparse hrewrite
            . have hne : parent ≠ t := by
                rintro rfl
                exact heq (chunkSections_inj hchunked.chunk hkp ht)
              obtain ⟨body₂, hbody₂, hlowered₂⟩ := h.body k t body₁ ht hbody₁
              refine ⟨body₂, by rw [List.getElem?_set_ne heq, hbody₂], ?_⟩
              rwa [if_neg (by simpa using hne)]
          . rw [h.removals, List.filter_append]
            simp [hreserved]

/-- The loop of `strip_reserved_tpdo_sub4`. -/
theorem Stripped.run {lines lines' : List (List Char)} {sections done removals removals' : List Section}
    (hchunked : Chunked sectionMark lines before bodies₀)
    (h : Stripped cf (byName cf lines) before.length bodies₀ bodies done removals)
    (hrun : sections.foldlM (stripSection cf (byName cf lines)) (before ++ bodies.flatten, removals)
      = .ok (lines', removals'))
    : ∃ bodies', lines' = before ++ bodies'.flatten
      ∧ Stripped cf (byName cf lines) before.length bodies₀ bodies' (done ++ sections) removals' := by
  induction sections generalizing bodies done removals with
  | nil =>
    cases hrun
    exact ⟨bodies, rfl, by simpa using h⟩
  | cons s sections ih =>
    rw [List.foldlM_cons] at hrun
    obtain ⟨⟨mid, removals₁⟩, hstep, hrun⟩ := bind_eq_ok.mp hrun
    obtain ⟨bodies₁, rfl, hstripped⟩ := h.step hchunked hstep
    obtain ⟨bodies₂, hlines, hresult⟩ := ih hstripped hrun
    exact ⟨bodies₂, hlines, by simpa using hresult⟩

end

/-! ### The ends of the lines -/

section

variable {lines body : List (List Char)} {line value : List Char} {kv : KeyValue} {j n : Nat}

/-- What stands before the end of a line with a value is plain. -/
theorem IsKeyValue.plain (h : IsKeyValue kv line) (hended : EndedLines lines) (hmem : line ∈ lines) (hne : kv.value ≠ [])
    : Plain (kv.head ++ kv.value) := by
  obtain ⟨b, e, hline, hplain, he⟩ := hended.mem hmem
  have hblank : ∀ c ∈ e, isSpace c = true := by
    obtain rfl | rfl | rfl := he <;> simp [isSpace]
  obtain ⟨c, tail, hc⟩ := List.exists_cons_of_ne_nil hne
  have hspace : isSpace c = false := h.begins c (by rw [hc]; rfl)
  obtain ⟨b', rfl, hrest⟩ : ∃ b', b = kv.head ++ b' ∧ kv.value ++ kv.stop = b' ++ e := by
    obtain ⟨t, ht, ht'⟩ | ⟨t, ht, ht'⟩ := List.append_eq_append_iff.mp (hline.symm.trans h.line)
    . -- the value would begin in the line end
      have hmem : c ∈ e := by
        rw [ht', hc]
        simp
      rw [hblank c hmem] at hspace
      cases hspace
    . exact ⟨t, ht, ht'⟩
  have hb' : Plain b' := hplain.sublist (List.sublist_append_right _ _)
  have hstop := h.stop
  rw [hrest, splitEnd_plain hb' he] at hstop
  rwa [← (Prod.mk.inj hstop).1]

theorem IsKeyValue.head_ne_nil (h : IsKeyValue kv line) : kv.head ≠ [] := by
  obtain ⟨name, w, _, _, _, hhead, _⟩ := h.head
  rw [hhead]
  simp

/-- A value that is written does not touch the end of its line. -/
theorem IsKeyValue.sameEnd (h : IsKeyValue kv line) (hended : EndedLines lines) (hmem : line ∈ lines)
    (hne : kv.value ≠ []) (hvalue : Written value) : SameEnd line (kv.head ++ (value ++ kv.stop)) := by
  have hplain := h.plain hended hmem hne
  have hhead : Plain kv.head := hplain.sublist (List.sublist_append_left _ _)
  rw [h.line, ← List.append_assoc, ← List.append_assoc]
  exact .edit hplain (by simp [h.head_ne_nil]) (hhead.append hvalue.plain) (by simp [h.head_ne_nil])

theorem parseInt_nil {v : List Char} (h : parseInt v = some n) : v ≠ [] := by
  rintro rfl
  cases h

/-- A line that is edited within its section. -/
theorem Rewrite.forall₂ {R : List Char → List Char → Prop} (h : Rewrite body j kv value) (hrefl : ∀ l, R l l)
    (hedit : ∀ line, body[j]? = some line → matchKeyValue line = some kv → R line (kv.head ++ (value ++ kv.stop)))
    : List.Forall₂ R body (rewrite body j kv value) := by
  obtain ⟨line, hline, hmatch⟩ := h.line
  refine List.forall₂_of_length_eq_of_get length_rewrite.symm fun i hi hi' => ?_
  rw [List.get_eq_getElem, List.get_eq_getElem]
  simp only [rewrite, List.getElem_set]
  split
  next heq =>
    subst heq
    have hget := hline
    rw [List.getElem?_eq_getElem hi] at hget
    rw [Option.some_inj.mp hget]
    exact hedit line hline hmatch
  next => exact hrefl _

/-- A number that is replaced does not touch the ends of the lines. -/
theorem Rewrite.sameEnd (h : Rewrite body j kv value) (hended : EndedLines lines) (hbody : ∀ l ∈ body, l ∈ lines)
    (hn : parseInt (strip kv.value) = some n) : List.Forall₂ SameEnd body (rewrite body j kv value) := by
  have hne : kv.value ≠ [] := by
    intro hnil
    rw [hnil] at hn
    exact parseInt_nil hn rfl
  refine h.forall₂ .refl fun line hline hmatch => ?_
  exact (matchKeyValue_eq_some.mp hmatch).sameEnd hended (hbody line (List.mem_of_getElem? hline)) hne h.value

end

/-- Sections that are edited without the ends of their lines are ended. -/
theorem ended_of_forall₂ {R : List (List Char) → List (List Char) → Prop} {before : List (List Char)}
    {bodies bodies' : List (List (List Char))} (hended : EndedLines (before ++ bodies.flatten))
    (h : List.Forall₂ R bodies bodies')
    (hR : ∀ body body', R body body' → (∀ l ∈ body, l ∈ before ++ bodies.flatten) → List.Forall₂ SameEnd body body')
    : EndedLines (before ++ bodies'.flatten) := by
  have hmem : ∀ body ∈ bodies, ∀ l ∈ body, l ∈ before ++ bodies.flatten := fun body hbody l hl =>
    List.mem_append_right _ (List.mem_flatten.mpr ⟨body, hbody, hl⟩)
  refine hended.edit (List.rel_append (List.forall₂_same.mpr fun _ _ => .refl _) (List.rel_flatten ?_))
  exact ((List.forall₂_and_left _ _).mpr ⟨hmem, h⟩).imp fun body body' ⟨hbody, hbodies⟩ => hR body body' hbodies hbody

/-! ### The lines that are deleted -/

/-- The section is no reserved sub-index. -/
def kept (body : List (List Char)) : Bool := (reservedObject (nameOf body)).isNone

section

variable {cf : CaseFold} {text out : List Char} {before : List (List Char)} {removed : List (List Char)}
  {bodies₀ bodies : List (List (List Char))} {body body' : List (List Char)} {r j : Nat} {v value : List Char}
  {kv : KeyValue}

/-- Sections that are deleted from the last to the first leave the others. -/
theorem deleteSections (before : List (List Char)) (bodies : List (List (List Char)))
    : ((chunkSections before.length bodies).filter fun s => (reservedObject s.name).isSome).reverse.foldl
        deleteSection (before ++ bodies.flatten)
      = before ++ (bodies.filter kept).flatten := by
  induction bodies generalizing before with
  | nil => rfl
  | cons body bodies ih =>
    have hrest := ih (before ++ body)
    rw [List.length_append, List.append_assoc] at hrest
    rw [chunkSections, List.flatten_cons, List.filter_cons, List.filter_cons]
    cases hreserved : reservedObject (nameOf body) with
    | none =>
      have hkept : kept body = true := by rw [kept, hreserved]; rfl
      rw [hkept]
      simp only [Option.isSome_none, Bool.false_eq_true, if_false, if_true, List.flatten_cons]
      rw [hrest, List.append_assoc]
    | some object =>
      have hkept : kept body = false := by rw [kept, hreserved]; rfl
      rw [hkept]
      simp only [Option.isSome_some, if_true, Bool.false_eq_true, if_false, List.reverse_cons, List.foldl_append]
      rw [hrest]
      simp only [List.foldl_cons, List.foldl_nil, deleteSection]
      rw [List.append_assoc, List.take_left, ← List.append_assoc, List.drop_left' (by simp)]

/-- The removals are sorted by turning them round. -/
theorem mergeSort_removals {sections : List Section} (h : sections.Pairwise fun s t => s.start < t.start)
    : (sections.mergeSort fun a b => decide (b.start ≤ a.start)) = sections.reverse := by
  refine @List.Perm.eq_of_pairwise _ (fun a b => decide (b.start ≤ a.start) = true) _ _ ?_ ?_ ?_ ?_
  . intro a b ha hb hle hle'
    rw [List.mem_mergeSort] at ha
    rw [List.mem_reverse] at hb
    simp only [decide_eq_true_eq] at hle hle'
    obtain ⟨i, hi, rfl⟩ := List.getElem_of_mem ha
    obtain ⟨i', hi', rfl⟩ := List.getElem_of_mem hb
    obtain hlt | heq | hlt := Nat.lt_trichotomy i i'
    . have hstart := List.pairwise_iff_getElem.mp h i i' hi hi' hlt
      omega
    . subst heq
      rfl
    . have hstart := List.pairwise_iff_getElem.mp h i' i hi' hi hlt
      omega
  . apply List.pairwise_mergeSort
    . intro a b c hab hbc
      simp only [decide_eq_true_eq] at hab hbc ⊢
      omega
    . intro a b
      simp only [Bool.or_eq_true, decide_eq_true_eq]
      omega
  . rw [List.pairwise_reverse]
    refine h.imp fun hlt => ?_
    simp only [decide_eq_true_eq]
    omega
  . exact (List.mergeSort_perm _ _).trans (List.reverse_perm _).symm

/-- The value that is found in a section is that of the line that is written. -/
theorem Rewrite.value_eq {k : List Char} (h : Rewrite body j kv value)
    (hv : (Dcf.bodyValues cf body).lookup k = some (v, j)) : v = strip kv.value ∧ cf.casefold kv.key = k := by
  obtain ⟨_, line, kv', hline, hmatch, hkey, hv⟩ := bodyValues_lookup hv
  obtain ⟨line', hline', hmatch'⟩ := h.line
  obtain rfl : line = line' := Option.some_inj.mp (hline.symm.trans hline')
  obtain rfl : kv = kv' := Option.some_inj.mp (hmatch'.symm.trans hmatch)
  exact ⟨hv, hkey⟩

theorem Lowered.sameEnd {lines : List (List Char)} (h : Lowered cf r body body') (hended : EndedLines lines)
    (hbody : ∀ l ∈ body, l ∈ lines) : List.Forall₂ SameEnd body body' := by
  cases h with
  | keep => exact List.forall₂_same.mpr fun _ _ => .refl _
  | lower hv hn _ _ hrewrite => exact hrewrite.sameEnd hended hbody ((hrewrite.value_eq hv).1 ▸ hn)

/-- What `strip_reserved_tpdo_sub4` makes of a text. -/
theorem stripReservedTpdoSub4_ok (hended : EndedLines (splitLines text))
    (hchunked : Chunked sectionMark (splitLines text) before bodies₀)
    (h : stripReservedTpdoSub4 cf text = .ok (out, removed))
    : ∃ bodies, Stripped cf (byName cf (splitLines text)) before.length bodies₀ bodies
        (collectSections (splitLines text))
        ((collectSections (splitLines text)).filter fun s => (reservedObject s.name).isSome)
      ∧ splitLines out = before ++ (bodies.filter kept).flatten
      ∧ out = (before ++ (bodies.filter kept).flatten).flatten
      ∧ EndedLines (before ++ (bodies.filter kept).flatten)
      ∧ removed = ((collectSections (splitLines text)).filter fun s => (reservedObject s.name).isSome).map
        fun s => upperHex 4 (natOfDigits 16 (s.name.take 4)) := by
  obtain ⟨⟨lines, removals⟩, hrun, hresult⟩ := bind_eq_ok.mp h
  have hstart : Stripped cf (byName cf (splitLines text)) before.length bodies₀ bodies₀ [] [] :=
    ⟨rfl, fun k s body₀ _ hbody => ⟨body₀, hbody, .keep body₀⟩, rfl⟩
  have hstate : (splitLines text, ([] : List Section)) = (before ++ bodies₀.flatten, []) := by
    rw [← hchunked.list]
  rw [hstate] at hrun
  obtain ⟨bodies, rfl, hstripped⟩ := hstart.run hchunked hrun
  rw [List.nil_append] at hstripped
  have hremovals := hstripped.removals
  subst hremovals
  cases hresult
  have hsections : collectSections (splitLines text) = chunkSections before.length bodies := by
    rw [collectSections_chunked hchunked, hstripped.evolved.chunkSections]
  have hlines : (((collectSections (splitLines text)).filter fun s => (reservedObject s.name).isSome).mergeSort
      fun a b => decide (b.start ≤ a.start)).foldl deleteSection (before ++ bodies.flatten)
      = before ++ (bodies.filter kept).flatten := by
    rw [mergeSort_removals, hsections, deleteSections]
    rw [collectSections_chunked hchunked]
    exact (chunkSections_pairwise hchunked.chunk).filter _
  have hall : EndedLines (before ++ bodies.flatten) := by
    rw [hchunked.list] at hended
    exact ended_of_forall₂ hended hstripped.lowered fun _ _ ⟨_, hlowered⟩ => hlowered.sameEnd hended
  have hended' : EndedLines (before ++ (bodies.filter kept).flatten) :=
    hall.sublist (List.Sublist.append (List.Sublist.refl _) (List.Sublist.flatten List.filter_sublist))
  rw [hlines]
  exact ⟨bodies, hstripped, splitLines_flatten (lines_of_ended hended'), rfl, hended', rfl⟩

/-- A text without reserved sub-indexes is kept. -/
theorem stripReservedTpdoSub4_kept (hchunked : Chunked sectionMark (splitLines text) before bodies)
    (h : ∀ body ∈ bodies, kept body = true) : stripReservedTpdoSub4 cf text = .ok (text, []) := by
  have hrun (lines : List (List Char)) (removals : List Section) (start : Nat)
      : (chunkSections start bodies).foldlM (stripSection cf (byName cf (splitLines text))) (lines, removals)
        = .ok (lines, removals) := by
    clear hchunked
    induction bodies generalizing start with
    | nil => rfl
    | cons body bodies ih =>
      have hnone : reservedObject (nameOf body) = none := by
        simpa [kept] using h body List.mem_cons_self
      rw [chunkSections, List.foldlM_cons, stripSection, hnone]
      exact ih (fun b hb => h b (List.mem_cons_of_mem _ hb)) _
  unfold stripReservedTpdoSub4
  dsimp only
  rw [collectSections_chunked hchunked, hrun]
  simp only [bind, Except.bind, List.mergeSort_nil, List.foldl_nil, flatten_splitLines, List.map_nil]
  rfl

end

end LelyRtt.Dcf
