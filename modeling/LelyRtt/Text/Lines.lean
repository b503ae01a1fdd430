import Mathlib.Data.List.DropRight
import Mathlib.Tactic.Common

/-!
This module contains the lines of a text: how Python splits a text into lines and strips blanks, and
which lists of lines are the lines of the text that they make up.
-/

namespace LelyRtt.Text

/-- Whether all characters of a text have a property is decided at the text, not at all characters there are. -/
instance (priority := 2000) decidableChars (p : Char → Prop) [DecidablePred p] (s : List Char) : Decidable (∀ c ∈ s, p c) :=
  List.decidableBAll p s

/-- `str.isspace` of a character, which is what a regular expression takes for a blank. -/
def isSpace (c : Char) : Bool :=
  let n := c.toNat
  (9 ≤ n ∧ n ≤ 13) ∨ (28 ≤ n ∧ n ≤ 32) ∨ n = 0x85 ∨ n = 0xa0 ∨ n = 0x1680 ∨ (0x2000 ≤ n ∧ n ≤ 0x200a)
    ∨ n = 0x2028 ∨ n = 0x2029 ∨ n = 0x202f ∨ n = 0x205f ∨ n = 0x3000

/-- The characters that end a line for `str.splitlines`. -/
def isBoundary (c : Char) : Bool :=
  let n := c.toNat
  (10 ≤ n ∧ n ≤ 13) ∨ (28 ≤ n ∧ n ≤ 30) ∨ n = 0x85 ∨ n = 0x2028 ∨ n = 0x2029

/-- `str.lstrip` -/
def lstrip (s : List Char) : List Char := s.dropWhile isSpace

/-- `str.rstrip` -/
def rstrip (s : List Char) : List Char := s.rdropWhile isSpace

/-- `str.strip` -/
def strip (s : List Char) : List Char := rstrip (lstrip s)

/-- `str.rstrip` of the characters of a line end. -/
def rstripEnd (s : List Char) : List Char := s.rdropWhile fun c => c = '\r' ∨ c = '\n'

/-- `str.splitlines` that keeps the line ends. -/
def splitLines : List Char → List (List Char)
  | [] => []
  | '\r' :: '\n' :: rest => ['\r', '\n'] :: splitLines rest
  | c :: rest =>
    if isBoundary c then
      [c] :: splitLines rest
    else
      match splitLines rest with
      | [] => [[c]]
      | line :: lines => (c :: line) :: lines

/-- A text within a line. -/
def Plain (s : List Char) : Prop := ∀ c ∈ s, isBoundary c = false

instance (s : List Char) : Decidable (Plain s) := decidableChars _ s

/-- The end of a line. -/
inductive LineEnd : List Char → Prop
  | crlf : LineEnd ['\r', '\n']
  | single {c : Char} : isBoundary c → LineEnd [c]

/-- The lines of a text. -/
inductive Lines : List (List Char) → Prop
  | nil : Lines []
  | last {body : List Char} : Plain body → body ≠ [] → Lines [body]
  | cons {body stop : List Char} {lines : List (List Char)} : Plain body → LineEnd stop →
      -- what follows a carriage return is no line feed
      (stop = ['\r'] → ∀ line ∈ lines.head?, line.head? ≠ some '\n') → Lines lines →
      Lines ((body ++ stop) :: lines)

section

variable {s s' body stop line : List Char} {lines lines' : List (List Char)} {c : Char}

theorem isSpace_of_isBoundary (h : isBoundary c = true) : isSpace c = true := by
  simp only [isBoundary, isSpace, decide_eq_true_eq] at h ⊢
  omega

theorem flatten_splitLines (s : List Char) : (splitLines s).flatten = s := by
  fun_induction splitLines s with
  | case1 => rfl
  | case2 rest ih => simp [ih]
  | case3 c rest _ _ ih => simp [ih]
  | case4 c rest _ _ hlines ih =>
    rw [hlines] at ih
    simp [← ih]
  | case5 c rest _ _ line lines hlines ih =>
    rw [hlines] at ih
    simp [← ih]

theorem Plain.append (h : Plain s) (h' : Plain s') : Plain (s ++ s') := by
  intro c hc
  obtain hc | hc := List.mem_append.mp hc
  . exact h c hc
  . exact h' c hc

theorem Plain.sublist (h : Plain s) (hsub : s'.Sublist s) : Plain s' :=
  fun c hc => h c (hsub.subset hc)

theorem plain_cons : Plain (c :: s) ↔ isBoundary c = false ∧ Plain s := by
  simp [Plain]

theorem plain_nil : Plain [] :=
  fun _ h => nomatch h

theorem LineEnd.ne_nil (h : LineEnd stop) : stop ≠ [] := by
  cases h <;> simp

/-- Every character of a line end is a boundary. -/
theorem LineEnd.boundary (h : LineEnd stop) : ∀ c ∈ stop, isBoundary c = true := by
  cases h with
  | crlf => decide
  | single hc => simpa using hc

/-- The boundaries of a line stand at its end. -/
theorem Lines.mem (h : Lines lines) (hmem : line ∈ lines)
    : ∃ body stop, line = body ++ stop ∧ Plain body ∧ ∀ c ∈ stop, isBoundary c = true := by
  induction h with
  | nil => cases hmem
  | last hbody hne =>
    rw [List.mem_singleton.mp hmem]
    exact ⟨_, [], (List.append_nil _).symm, hbody, by simp⟩
  | cons hbody hstop _ _ ih =>
    obtain rfl | hmem := List.mem_cons.mp hmem
    . exact ⟨_, _, rfl, hbody, hstop.boundary⟩
    . exact ih hmem

/-- What stands before a character that is no boundary is plain. -/
theorem Lines.plain (h : Lines lines) {r r' : List Char} (hc : isBoundary c = false)
    (hmem : s ++ (r ++ c :: r') ∈ lines) : Plain s := by
  obtain ⟨body, stop, heq, hbody, hstop⟩ := h.mem hmem
  obtain ⟨rest, hrest⟩ | ⟨rest, hrest, hrest'⟩ := List.append_eq_append_iff.mp heq
  . exact hbody.sublist (hrest.1 ▸ List.sublist_append_left s rest)
  . have hboundary := hstop c (by rw [hrest']; simp)
    rw [hc] at hboundary
    cases hboundary

/-- The head of a text is the head of its first line. -/
theorem head_splitLines (s : List Char)
    : ∀ line ∈ (splitLines s).head?, line ≠ [] ∧ line.head? = s.head? := by
  fun_cases splitLines s <;> simp_all

theorem lines_splitLines (s : List Char) : Lines (splitLines s) := by
  fun_induction splitLines s with
  | case1 => exact .nil
  | case2 rest ih => exact Lines.cons plain_nil .crlf (by simp) ih
  | case3 c rest hcrlf hc ih =>
    refine Lines.cons plain_nil (.single hc) ?_ ih
    intro hstop line hline hhead
    cases hstop
    have hrest := (head_splitLines rest line hline).2
    rw [hhead] at hrest
    obtain ⟨tail, rfl⟩ : ∃ tail, rest = '\n' :: tail := ⟨_, List.eq_cons_of_mem_head? hrest.symm⟩
    exact hcrlf tail rfl rfl
  | case4 c rest _ hc _ => exact .last (by simpa [Plain] using hc) (by simp)
  | case5 c rest _ hc line lines hlines ih =>
    rw [hlines] at ih
    have hc : isBoundary c = false := by simpa using hc
    cases ih with
    | last hbody => exact .last (plain_cons.mpr ⟨hc, hbody⟩) (by simp)
    | cons hbody hstop hreturn hrest =>
      exact .cons (plain_cons.mpr ⟨hc, hbody⟩) hstop hreturn hrest

theorem splitLines_boundary (hc : isBoundary c = true) (hreturn : c = '\r' → s.head? ≠ some '\n')
    : splitLines (c :: s) = [c] :: splitLines s := by
  rw [splitLines]
  . rw [if_pos hc]
  . rintro rest rfl rfl
    exact hreturn rfl rfl

theorem splitLines_plain (hc : isBoundary c = false)
    : splitLines (c :: s) = match splitLines s with
      | [] => [[c]]
      | line :: lines => (c :: line) :: lines := by
  rw [splitLines]
  . rw [if_neg (by simp [hc])]
  . rintro rest rfl rfl
    cases hc

/-- A line is split off a text. -/
theorem splitLines_append (hbody : Plain body) (hstop : LineEnd stop)
    (hreturn : stop = ['\r'] → s.head? ≠ some '\n')
    : splitLines (body ++ stop ++ s) = (body ++ stop) :: splitLines s := by
  induction body with
  | nil =>
    cases hstop with
    | crlf => rfl
    | single hc => exact splitLines_boundary hc (fun heq => hreturn (by rw [heq]))
  | cons c body ih =>
    obtain ⟨hc, hbody⟩ := plain_cons.mp hbody
    rw [List.cons_append, List.cons_append, splitLines_plain hc, ih hbody]

theorem splitLines_of_plain (h : Plain s) (hne : s ≠ []) : splitLines s = [s] := by
  induction s with
  | nil => exact absurd rfl hne
  | cons c s ih =>
    obtain ⟨hc, hs⟩ := plain_cons.mp h
    rw [splitLines_plain hc]
    by_cases hnil : s = []
    . rw [hnil]
      rfl
    . rw [ih hs hnil]

/-- The lines of a text are found again in it. -/
theorem splitLines_flatten (h : Lines lines) : splitLines lines.flatten = lines := by
  induction h with
  | nil => rfl
  | last hbody hne => simpa using splitLines_of_plain hbody hne
  | @cons body stop lines hbody hstop hreturn hlines ih =>
    rw [List.flatten_cons, splitLines_append hbody hstop, ih]
    intro hcr hhead
    have hline := head_splitLines lines.flatten
    rw [ih] at hline
    cases lines with
    | nil => simp at hhead
    | cons line lines =>
      obtain ⟨hne, heq⟩ := hline line rfl
      exact hreturn hcr line rfl (heq.trans hhead)

/-- Both lines end in the same way, and neither begins with its end. -/
inductive SameEnd : List Char → List Char → Prop
  | refl (line : List Char) : SameEnd line line
  | edit {body body' stop : List Char} : Plain body → body ≠ [] → Plain body' → body' ≠ [] →
      SameEnd (body ++ stop) (body' ++ stop)

theorem SameEnd.head (h : SameEnd s s') (hhead : s.head? ≠ some '\n') : s'.head? ≠ some '\n' := by
  cases h with
  | refl => exact hhead
  | @edit body body' stop _ _ hplain hne' =>
    obtain ⟨c, tail, rfl⟩ := List.exists_cons_of_ne_nil hne'
    intro heq
    cases heq
    exact absurd (hplain '\n' List.mem_cons_self) (by decide)

/-- Where a line has an end, an edit of it has the same one. -/
theorem SameEnd.of_end (h : SameEnd (body ++ stop) s) (hbody : Plain body) (hstop : LineEnd stop)
    : ∃ body', s = body' ++ stop ∧ Plain body' := by
  generalize hline : body ++ stop = line at h
  cases h with
  | refl => exact ⟨body, hline.symm, hbody⟩
  | @edit body₁ body₂ stop₁ hbody₁ hne₁ hbody₂ hne₂ =>
    -- the plain part of a line ends where its end begins
    have hplain {a a' b b' : List Char} (heq : a ++ b = a' ++ b') (ha : Plain a) (hb' : ∀ c ∈ b', isBoundary c = true)
        : a.length ≤ a'.length := by
      by_contra hlt
      have hlt : a'.length < a.length := by omega
      have hget : (a ++ b)[a'.length]? = a[a'.length]? := List.getElem?_append_left hlt
      rw [heq, List.getElem?_append_right (Nat.le_refl _), List.getElem?_eq_getElem hlt] at hget
      have hmem := hb' _ (List.mem_of_getElem? hget)
      rw [ha _ (List.getElem_mem hlt)] at hmem
      cases hmem
    have hle := hplain hline.symm hbody₁ hstop.boundary
    obtain ⟨rest, hrest⟩ : ∃ rest, stop₁ = rest ++ stop := by
      refine ⟨body.drop body₁.length, ?_⟩
      have hdrop := congrArg (List.drop body₁.length) hline
      rw [List.drop_append_of_le_length hle, List.drop_left] at hdrop
      exact hdrop.symm
    refine ⟨body₂ ++ rest, by rw [hrest, List.append_assoc], hbody₂.append ?_⟩
    rw [hrest, ← List.append_assoc] at hline
    have heq := List.append_cancel_right hline
    intro c hc
    exact hbody c (heq ▸ List.mem_append_right _ hc)

/-- Lines that are edited without their ends are the lines of a text. -/
theorem Lines.edit (h : Lines lines) (hedit : List.Forall₂ SameEnd lines lines') : Lines lines' := by
  induction h generalizing lines' with
  | nil =>
    cases hedit
    exact .nil
  | @last body hbody hne =>
    cases hedit with
    | cons hline hrest =>
      cases hrest
      cases hline with
      | refl => exact .last hbody hne
      | @edit body₁ body₂ stop₁ _ _ hbody₂ hne₂ =>
        refine .last (hbody₂.append ?_) (by simp [hne₂])
        intro c hc
        exact hbody c (List.mem_append_right _ hc)
  | @cons body stop lines hbody hstop hreturn hlines ih =>
    cases hedit with
    | @cons _ line' _ lines' hline hrest =>
      obtain ⟨body', rfl, hbody'⟩ := hline.of_end hbody hstop
      refine .cons hbody' hstop ?_ (ih hrest)
      intro hcr next hnext
      cases hrest with
      | nil => simp at hnext
      | cons hfirst _ =>
        cases hnext
        exact hfirst.head (hreturn hcr _ rfl)

/-- The lines of a text that are ended by LF or CRLF, apart from the last, which may have no end. -/
inductive EndedLines : List (List Char) → Prop
  | nil : EndedLines []
  | last {body : List Char} : Plain body → body ≠ [] → EndedLines [body]
  | cons {body stop : List Char} {lines : List (List Char)} : Plain body → stop = ['\n'] ∨ stop = ['\r', '\n'] →
      EndedLines lines → EndedLines ((body ++ stop) :: lines)

theorem lineEnd_of_lf (h : stop = ['\n'] ∨ stop = ['\r', '\n']) : LineEnd stop := by
  obtain rfl | rfl := h
  . exact .single (by decide)
  . exact .crlf

theorem lines_of_ended (h : EndedLines lines) : Lines lines := by
  induction h with
  | nil => exact .nil
  | last hbody hne => exact .last hbody hne
  | cons hbody hstop _ ih =>
    refine .cons hbody (lineEnd_of_lf hstop) (fun hcr => ?_) ih
    obtain rfl | rfl := hstop <;> simp at hcr

/-- Lines that are left out leave the others ended. -/
theorem EndedLines.sublist (h : EndedLines lines) (hsub : lines'.Sublist lines) : EndedLines lines' := by
  induction h generalizing lines' with
  | nil =>
    rw [List.sublist_nil.mp hsub]
    exact .nil
  | last hbody hne =>
    obtain rfl | rfl := List.sublist_singleton.mp hsub
    . exact .nil
    . exact .last hbody hne
  | cons hbody hstop _ ih =>
    cases hsub with
    | cons _ hrest => exact ih hrest
    | cons_cons _ hrest => exact .cons hbody hstop (ih hrest)

/-- Lines that are edited without their ends are ended. -/
theorem EndedLines.edit (h : EndedLines lines) (hedit : List.Forall₂ SameEnd lines lines') : EndedLines lines' := by
  induction h generalizing lines' with
  | nil =>
    cases hedit
    exact .nil
  | @last body hbody hne =>
    cases hedit with
    | cons hline hrest =>
      cases hrest
      cases hline with
      | refl => exact .last hbody hne
      | @edit body₁ body₂ stop₁ _ _ hbody₂ hne₂ =>
        refine .last (hbody₂.append ?_) (by simp [hne₂])
        intro c hc
        exact hbody c (List.mem_append_right _ hc)
  | cons hbody hstop _ ih =>
    cases hedit with
    | cons hline hrest =>
      obtain ⟨body', rfl, hbody'⟩ := hline.of_end hbody (lineEnd_of_lf hstop)
      exact .cons hbody' hstop (ih hrest)

/-- A line of a text with its end. -/
theorem EndedLines.mem (h : EndedLines lines) (hmem : line ∈ lines)
    : ∃ body stop, line = body ++ stop ∧ Plain body ∧ (stop = [] ∨ stop = ['\n'] ∨ stop = ['\r', '\n']) := by
  induction h with
  | nil => cases hmem
  | last hbody hne =>
    rw [List.mem_singleton.mp hmem]
    exact ⟨_, [], (List.append_nil _).symm, hbody, .inl rfl⟩
  | cons hbody hstop _ ih =>
    obtain rfl | hmem := List.mem_cons.mp hmem
    . exact ⟨_, _, rfl, hbody, .inr hstop⟩
    . exact ih hmem

theorem splitLines_plain_append (h : Plain s) (hne : s ≠ [])
    : splitLines (s ++ s') = match splitLines s' with
      | [] => [s]
      | line :: lines => (s ++ line) :: lines := by
  induction s with
  | nil => exact absurd rfl hne
  | cons c s ih =>
    obtain ⟨hc, hs⟩ := plain_cons.mp h
    rw [List.cons_append, splitLines_plain hc]
    by_cases hnil : s = []
    . rw [hnil]
      rfl
    . rw [ih hs hnil]
      cases splitLines s' <;> rfl

/-- A line by itself. -/
theorem ended_line (hbody : Plain body) (hstop : stop = [] ∨ stop = ['\n'] ∨ stop = ['\r', '\n'])
    : EndedLines (splitLines (body ++ stop)) := by
  obtain rfl | hstop := hstop
  . rw [List.append_nil]
    by_cases hne : body = []
    . rw [hne]
      exact .nil
    . rw [splitLines_of_plain hbody hne]
      exact .last hbody hne
  . have hsplit := splitLines_append (s := []) hbody (lineEnd_of_lf hstop) (by simp)
    rw [List.append_nil] at hsplit
    rw [hsplit]
    exact .cons hbody hstop .nil

theorem ended_of_mem (h : EndedLines lines) (hmem : line ∈ lines) : EndedLines (splitLines line) := by
  obtain ⟨body, stop, rfl, hbody, hstop⟩ := h.mem hmem
  exact ended_line hbody hstop

/-- Texts with ended lines are put together. -/
theorem ended_append (h : EndedLines (splitLines s)) (h' : EndedLines (splitLines s')) : EndedLines (splitLines (s ++ s')) := by
  rw [← flatten_splitLines s]
  generalize splitLines s = lines at h
  induction h with
  | nil => exact h'
  | @last body hbody hne =>
    rw [List.flatten_singleton, splitLines_plain_append hbody hne]
    cases hlines : splitLines s' with
    | nil => exact .last hbody hne
    | cons line lines =>
      rw [hlines] at h'
      cases h' with
      | last hline _ => exact .last (hbody.append hline) (by simp [hne])
      | cons hline hstop hrest =>
        simp only
        rw [← List.append_assoc]
        exact .cons (hbody.append hline) hstop hrest
  | cons hbody hstop _ ih =>
    rw [List.flatten_cons, List.append_assoc, splitLines_append hbody (lineEnd_of_lf hstop)]
    . exact .cons hbody hstop ih
    . intro hcr
      obtain rfl | rfl := hstop <;> simp at hcr

theorem ended_flatten (h : ∀ line ∈ lines, EndedLines (splitLines line)) : EndedLines (splitLines lines.flatten) := by
  induction lines with
  | nil => exact .nil
  | cons line lines ih =>
    exact ended_append (h line List.mem_cons_self) (ih fun l hl => h l (List.mem_cons_of_mem _ hl))

end

end LelyRtt.Text
