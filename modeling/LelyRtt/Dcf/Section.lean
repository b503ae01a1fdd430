import LelyRtt.Text.Match

/-!
This module contains what the tools for DCF texts have in common: the names of sections, and the
comparison of names and keys without their case.
-/

namespace LelyRtt.Dcf

open Text

/-- `str.casefold`, of which the tools rely on what it does to ASCII. -/
structure CaseFold where
  fold : Char → List Char
  ascii : ∀ c, c.toNat < 128 → fold c = [c.toLower]

/-- A case folding that agrees with `str.casefold` on ASCII texts. -/
def CaseFold.lower : CaseFold := ⟨fun c => [c.toLower], fun _ _ => rfl⟩

def CaseFold.casefold (cf : CaseFold) (s : List Char) : List Char := s.flatMap cf.fold

/-- `SECTION_RE` of a line without its end, with the blanks around the name taken off. -/
def sectionName (line : List Char) : Option (List Char) := do
  let s ← skipLit ['['] line
  let name := s.takeWhile (· ≠ ']')
  let s ← dropLit [']'] (s.dropWhile (· ≠ ']'))
  if name = [] ∨ !s.all isSpace then none else some (strip name)

/-- `parse_positive_int` of one tool and `parse_int` of another. -/
def parseInt (text : List Char) : Option Nat :=
  match strip text with
  | '0' :: 'x' :: digits | '0' :: 'X' :: digits =>
    if digits ≠ [] ∧ digits.all isHex then some (natOfDigits 16 digits) else none
  | digits => if digits ≠ [] ∧ digits.all Char.isDigit then some (natOfDigits 10 digits) else none

/-- A step that may raise returns if what it goes on with does. -/
theorem bind_eq_ok {ε α β : Type} {x : Except ε α} {f : α → Except ε β} {b : β}
    : x >>= f = .ok b ↔ ∃ a, x = .ok a ∧ f a = .ok b := by
  cases x with
  | error e => simp [bind, Except.bind]
  | ok a => simp [bind, Except.bind]

end LelyRtt.Dcf
