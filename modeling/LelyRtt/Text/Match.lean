import LelyRtt.Text.Lines
import LelyRtt.Text.Literal
import Mathlib.Data.List.Infix

/-!
This module contains the pieces that the regular expressions of the tools are made of: blanks,
literals behind blanks, and hexadecimal fields.
-/

namespace LelyRtt.Text

/-- A text that `\s*` matches as a whole. -/
def Blank (s : List Char) : Prop := ∀ c ∈ s, isSpace c = true

/-- The text does not begin with a blank. -/
def Begins (s : List Char) : Prop := ∀ c ∈ s.head?, isSpace c = false

/-- The text does not end with a blank. -/
def Ends (s : List Char) : Prop := ∀ c ∈ s.getLast?, isSpace c = false

/-- What follows a literal at the beginning of a text. -/
def dropLit (p s : List Char) : Option (List Char) :=
  if p.isPrefixOf s then some (s.drop p.length) else none

/-- What follows blanks and a literal at the beginning of a text. -/
def skipLit (p s : List Char) : Option (List Char) := dropLit p (lstrip s)

def isHex (c : Char) : Bool := (hexDigit c).isSome

/-- `0x` and hexadecimal digits, as the value of a field `name` of a structure on a line of its own. -/
def matchHexField (name line : List Char) : Option (List Char) := do
  let s ← skipLit name line
  let s ← skipLit ['='] s
  let s ← skipLit ['0', 'x'] s
  let digits := s.takeWhile isHex
  let s ← dropLit [','] (s.dropWhile isHex)
  if digits = [] ∨ !s.all isSpace then none else some digits

/-- `p in s` -/
def contains (p s : List Char) : Bool := s.tails.any p.isPrefixOf

/-- The value of digits of a base. -/
def natOfDigits (base : Nat) (digits : List Char) : Nat :=
  digits.foldl (fun value c => value * base + (hexDigit c).getD 0) 0

section

variable {s s' p r w : List Char} {c : Char}

theorem blank_nil : Blank [] := fun _ h => nomatch h

theorem Blank.append (h : Blank s) (h' : Blank s') : Blank (s ++ s') := by
  intro c hc
  obtain hc | hc := List.mem_append.mp hc
  . exact h c hc
  . exact h' c hc

theorem Begins.append (h : Begins s) (hne : s ≠ []) (s' : List Char) : Begins (s ++ s') := by
  obtain ⟨c, tail, rfl⟩ := List.exists_cons_of_ne_nil hne
  exact h

theorem Ends.append (h : Ends s) (hne : s ≠ []) (s' : List Char) : Ends (s' ++ s) := by
  rwa [Ends, List.getLast?_append_of_ne_nil _ hne]

theorem lstrip_blank (h : Blank w) (s : List Char) : lstrip (w ++ s) = lstrip s :=
  List.dropWhile_append_of_pos h

theorem lstrip_begins (h : Begins s) : lstrip s = s := by
  cases s with
  | nil => rfl
  | cons c s => exact List.dropWhile_cons_of_neg (by simp [h c rfl])

theorem begins_lstrip (s : List Char) : Begins (lstrip s) := by
  intro c hc
  have hnot := List.head?_dropWhile_not isSpace s
  rw [lstrip] at hc
  rw [hc] at hnot
  simpa using hnot

theorem lstrip_split (s : List Char) : ∃ w, Blank w ∧ s = w ++ lstrip s :=
  ⟨s.takeWhile isSpace, fun _ hc => List.mem_takeWhile_imp hc, List.takeWhile_append_dropWhile.symm⟩

theorem rstrip_eq (s : List Char) : rstrip s = (lstrip s.reverse).reverse := rfl

theorem rstrip_blank (h : Blank w) (s : List Char) : rstrip (s ++ w) = rstrip s := by
  rw [rstrip_eq, List.reverse_append, lstrip_blank, rstrip_eq]
  exact fun c hc => h c (List.mem_reverse.mp hc)

theorem rstrip_ends (h : Ends s) : rstrip s = s := by
  rw [rstrip_eq, lstrip_begins, List.reverse_reverse]
  rwa [Begins, List.head?_reverse]

theorem ends_rstrip (s : List Char) : Ends (rstrip s) := by
  rw [rstrip_eq, Ends, List.getLast?_reverse]
  exact begins_lstrip s.reverse

theorem rstrip_split (s : List Char) : ∃ w, Blank w ∧ s = rstrip s ++ w := by
  obtain ⟨w, hw, hs⟩ := lstrip_split s.reverse
  refine ⟨w.reverse, fun c hc => hw c (List.mem_reverse.mp hc), ?_⟩
  rw [rstrip_eq, ← List.reverse_append, ← hs, List.reverse_reverse]

theorem strip_eq (hbegins : Begins s) (hends : Ends s) : strip s = s := by
  rw [strip, lstrip_begins hbegins, rstrip_ends hends]

theorem rstrip_sublist (s : List Char) : (rstrip s).Sublist s :=
  (List.rdropWhile_prefix isSpace s).sublist

theorem dropLit_eq_some : dropLit p s = some r ↔ s = p ++ r := by
  unfold dropLit
  split
  next h =>
    obtain ⟨t, rfl⟩ := List.isPrefixOf_iff_prefix.mp h
    simp
  next h =>
    simp only [reduceCtorEq, false_iff]
    rintro rfl
    exact h (List.isPrefixOf_iff_prefix.mpr (List.prefix_append p r))

theorem skipLit_eq_some (hp : Begins p) (hne : p ≠ [])
    : skipLit p s = some r ↔ ∃ w, Blank w ∧ s = w ++ (p ++ r) := by
  rw [skipLit, dropLit_eq_some]
  constructor
  . intro h
    obtain ⟨w, hw, hs⟩ := lstrip_split s
    exact ⟨w, hw, by rw [← h]; exact hs⟩
  . rintro ⟨w, hw, rfl⟩
    rw [lstrip_blank hw, lstrip_begins (hp.append hne r)]

/-- What stands before a character that is kept is kept. -/
theorem rdropWhile_append {α : Type} {f : α → Bool} {a b : List α} (hne : a ≠ [])
    (hlast : ∀ c ∈ a.getLast?, f c = false) : (a ++ b).rdropWhile f = a ++ b.rdropWhile f := by
  rw [List.rdropWhile, List.rdropWhile, List.reverse_append, List.dropWhile_append]
  split
  next hempty =>
    have hnil : b.reverse.dropWhile f = [] := by simpa using hempty
    obtain ⟨c, tail, hreverse⟩ : ∃ c tail, a.reverse = c :: tail :=
      List.exists_cons_of_ne_nil (by simpa using hne)
    have hc : f c = false := hlast c (by rw [← List.head?_reverse, hreverse]; rfl)
    rw [hnil, hreverse, List.dropWhile_cons_of_neg (by simp [hc]), ← hreverse]
    simp
  next => simp

theorem contains_iff : contains p s = true ↔ p <:+: s := by
  simp only [contains, List.any_eq_true, List.mem_tails, List.isPrefixOf_iff_prefix]
  constructor
  . rintro ⟨t, ht, hp⟩
    exact hp.isInfix.trans ht.isInfix
  . rintro ⟨a, b, rfl⟩
    exact ⟨p ++ b, ⟨a, by simp⟩, List.prefix_append p b⟩

theorem contains_append (p a b : List Char) : contains p (a ++ (p ++ b)) = true :=
  contains_iff.mpr ⟨a, b, by simp⟩

/-- A text without a character of `p` does not contain `p`. -/
theorem contains_of_not_mem (c : Char) (hp : c ∈ p) (hs : c ∉ s) : contains p s = false := by
  by_contra h
  have hpart := contains_iff.mp (by simpa using h)
  exact hs (hpart.subset hp)

/-- Blanks before a text do not matter to what begins without a blank. -/
theorem contains_blank (hw : Blank w) (hp : Begins p) (hne : p ≠ []) (s : List Char)
    : contains p (w ++ s) = contains p s := by
  induction w with
  | nil => rfl
  | cons c w ih =>
    rw [← ih fun c' hc' => hw c' (List.mem_cons_of_mem _ hc'), List.cons_append]
    have hnot : p.isPrefixOf (c :: (w ++ s)) = false := by
      obtain ⟨c', tail, rfl⟩ := List.exists_cons_of_ne_nil hne
      have hc := hw c List.mem_cons_self
      have hc' := hp c' rfl
      have hcc' : c' ≠ c := by
        rintro rfl
        rw [hc] at hc'
        cases hc'
      simp [List.isPrefixOf, hcc']
    rw [contains, List.tails, List.any_cons, hnot, Bool.false_or]
    rfl

theorem begins_of_head {p : List Char} (h : (p.head?.map isSpace).getD false = false) : Begins p := by
  intro c hc
  rw [hc] at h
  simpa using h

theorem ends_of_last {p : List Char} (h : (p.getLast?.map isSpace).getD false = false) : Ends p := by
  intro c hc
  rw [hc] at h
  simpa using h

end

end LelyRtt.Text
