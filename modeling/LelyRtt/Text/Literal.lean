import Mathlib.Data.List.Basic
import Mathlib.Tactic.Common

/-!
This module contains a reader of C array literals of bytes: it takes the comments out of a text, looks
for the first braces and reads the byte literals between them. What the reader makes of a text can be
derived from what it makes of its parts.
-/

namespace LelyRtt.Text

/-- The text with a blank in place of each comment; the flag tells if the text starts in a comment. -/
def stripComments : Bool → List Char → List Char
  | _, [] => []
  | false, '/' :: '*' :: rest => stripComments true rest
  | false, c :: rest => c :: stripComments false rest
  | true, '*' :: '/' :: rest => ' ' :: stripComments false rest
  | true, _ :: rest => stripComments true rest

def hexDigit (c : Char) : Option Nat :=
  if '0' ≤ c ∧ c ≤ '9' then
    some (c.toNat - '0'.toNat)
  else if 'a' ≤ c ∧ c ≤ 'f' then
    some (c.toNat - 'a'.toNat + 10)
  else if 'A' ≤ c ∧ c ≤ 'F' then
    some (c.toNat - 'A'.toNat + 10)
  else
    none

/-- The value of a list of byte literals, each with a comma behind it. -/
def byteLiterals : List Char → Option (List UInt8)
  | [] => some []
  | '0' :: 'x' :: high :: low :: ',' :: rest =>
    match hexDigit high, hexDigit low, byteLiterals rest with
    | some h, some l, some bytes => some (UInt8.ofNat (16 * h + l) :: bytes)
    | _, _, _ => none
  | c :: rest => if c.isWhitespace then byteLiterals rest else none

/-- The bytes of the first array literal in the text. -/
def arrayLiteral (text : List Char) : Option (List UInt8) :=
  match (stripComments false text).dropWhile (· ≠ '{') with
  | [] => none
  | _ :: rest => byteLiterals (rest.takeWhile (· ≠ '}'))

/-! ### Comments -/

/-- Without its comments `text` is `out`, whatever follows it; the flags are those before and after. -/
def Strips (start : Bool) (text : List Char) (stop : Bool) (out : List Char) : Prop :=
  ∀ rest, stripComments start (text ++ rest) = out ++ stripComments stop rest

theorem Strips.append {start middle stop : Bool} {text text' out out' : List Char}
    (h : Strips start text middle out) (h' : Strips middle text' stop out')
    : Strips start (text ++ text') stop (out ++ out') := by
  intro rest
  rw [List.append_assoc, h, h', List.append_assoc]

/-- A text without a slash has no comment. -/
theorem strips_code {text : List Char} (h : '/' ∉ text) : Strips false text false text := by
  intro rest
  induction text with
  | nil => rfl
  | cons c text ih =>
    have hc : c ≠ '/' := fun heq => h (heq ▸ List.mem_cons_self)
    have hrest := ih (fun hmem => h (List.mem_cons_of_mem c hmem))
    rw [List.cons_append, stripComments, hrest]
    . rfl
    . intro tail heq
      cases heq
      exact absurd rfl hc

theorem strips_open : Strips false ['/', '*'] true [] :=
  fun _ => rfl

theorem strips_close : Strips true ['*', '/'] false [' '] :=
  fun _ => rfl

/-- No part of the text is a comment end, and none is once a slash is put behind it. -/
def inComment : List Char → Bool
  | [] => true
  | ['*'] => false
  | '*' :: '/' :: _ => false
  | _ :: rest => inComment rest

theorem strips_inComment {text : List Char} (h : inComment text = true) : Strips true text true [] := by
  intro rest
  fun_induction inComment text with
  | case1 => rfl
  | case2 => cases h
  | case3 => cases h
  | case4 c text hlast hend ih =>
    rw [List.cons_append, stripComments]
    . exact ih h
    . intro tail heq happ
      cases text with
      | nil => exact hlast heq rfl
      | cons c' text =>
        cases happ
        exact hend _ heq rfl

theorem inComment_append {text text' : List Char} (h : inComment text = true)
    (h' : inComment text' = true) : inComment (text ++ text') = true := by
  fun_induction inComment text with
  | case1 => exact h'
  | case2 => cases h
  | case3 => cases h
  | case4 c text hlast hend ih =>
    rw [List.cons_append, inComment]
    . exact ih h
    . intro heq happ
      exact hlast heq (List.append_eq_nil_iff.mp happ).1
    . intro tail heq happ
      cases text with
      | nil => exact hlast heq rfl
      | cons c' text =>
        cases happ
        exact hend _ heq rfl

theorem inComment_of_not_mem {text : List Char} (h : '*' ∉ text) : inComment text = true := by
  fun_induction inComment text with
  | case1 => rfl
  | case2 => exact absurd List.mem_cons_self h
  | case3 => exact absurd List.mem_cons_self h
  | case4 c text hlast hend ih => exact ih (fun hmem => h (List.mem_cons_of_mem c hmem))

/-- A text without a comment end stays in the comment if neither a star nor a slash follows it. -/
theorem inComment_append_singleton {text : List Char} {c : Char} (h : ¬ ['*', '/'] <:+: text)
    (hslash : c ≠ '/') (hstar : c ≠ '*') : inComment (text ++ [c]) = true := by
  induction text with
  | nil => simp [inComment, hstar]
  | cons c' text ih =>
    have hrest : ¬ ['*', '/'] <:+: text := fun hwithin => h (hwithin.trans (List.infix_cons (List.infix_refl text)))
    rw [List.cons_append, inComment]
    . exact ih hrest
    . intro _ happ
      simp at happ
    . intro tail heq happ
      cases text with
      | nil =>
        cases happ
        exact hslash rfl
      | cons c'' text =>
        cases happ
        exact h ⟨[], text, by simp [heq]⟩

/-! ### Byte literals -/

/-- `text` holds the literals of `bytes`, whatever literals follow it. -/
def Reads (text : List Char) (bytes : List UInt8) : Prop :=
  ∀ rest tail, byteLiterals rest = some tail → byteLiterals (text ++ rest) = some (bytes ++ tail)

theorem Reads.append {text text' : List Char} {bytes bytes' : List UInt8} (h : Reads text bytes)
    (h' : Reads text' bytes') : Reads (text ++ text') (bytes ++ bytes') := by
  intro rest tail htail
  rw [List.append_assoc, List.append_assoc]
  exact h _ _ (h' _ _ htail)

theorem reads_nil : Reads [] [] :=
  fun _ _ h => h

theorem reads_blanks {text : List Char} (h : text.all Char.isWhitespace) : Reads text [] := by
  intro rest tail htail
  induction text with
  | nil => exact htail
  | cons c text ih =>
    obtain ⟨hc, htext⟩ := Bool.and_eq_true_iff.mp (List.all_cons.symm.trans h)
    have hrest := ih htext
    rw [List.cons_append, byteLiterals]
    . rw [if_pos hc]
      exact hrest
    . intro high low tail' heq
      rw [heq] at hc
      exact absurd hc (by decide)

/-- The two digits of a byte. -/
theorem toDigits_byte (byte : UInt8)
    : (Nat.toDigits 16 byte.toNat).leftpad 2 '0'
      = [(byte.toNat / 16).digitChar, (byte.toNat % 16).digitChar] := by
  have hall : ∀ n : Fin 256, (Nat.toDigits 16 n.1).leftpad 2 '0'
      = [(n.1 / 16).digitChar, (n.1 % 16).digitChar] := by decide +kernel
  exact hall ⟨byte.toNat, byte.toNat_lt⟩

theorem hexDigit_digitChar {d : Nat} (h : d < 16) : hexDigit d.digitChar = some d := by
  have hall : ∀ n : Fin 16, hexDigit n.1.digitChar = some n.1 := by decide
  exact hall ⟨d, h⟩

theorem reads_byte (byte : UInt8)
    : Reads (['0', 'x'] ++ (Nat.toDigits 16 byte.toNat).leftpad 2 '0' ++ [',']) [byte] := by
  intro rest tail htail
  have hbyte := byte.toNat_lt
  rw [toDigits_byte]
  show byteLiterals ('0' :: 'x' :: _ :: _ :: ',' :: rest) = _
  rw [byteLiterals, hexDigit_digitChar (by omega), hexDigit_digitChar (by omega), htail]
  simp only [List.singleton_append, Option.some.injEq, List.cons.injEq, and_true]
  apply UInt8.toNat_inj.mp
  rw [UInt8.toNat_ofNat']
  omega

/-! ### Texts that write bytes -/

/-- Inside the braces of an array literal, `text` stands for `bytes`. -/
def Writes (text : List Char) (bytes : List UInt8) : Prop :=
  ∃ out, Strips false text false out ∧ '}' ∉ out ∧ Reads out bytes

theorem Writes.append {text text' : List Char} {bytes bytes' : List UInt8} (h : Writes text bytes)
    (h' : Writes text' bytes') : Writes (text ++ text') (bytes ++ bytes') := by
  obtain ⟨out, hstrips, hbrace, hreads⟩ := h
  obtain ⟨out', hstrips', hbrace', hreads'⟩ := h'
  refine ⟨out ++ out', hstrips.append hstrips', ?_, hreads.append hreads'⟩
  simp [hbrace, hbrace']

theorem writes_nil : Writes [] [] :=
  ⟨[], fun _ => rfl, by simp, reads_nil⟩

theorem writes_blanks {text : List Char} (h : text.all Char.isWhitespace) : Writes text [] := by
  have hnot (c : Char) (hc : c.isWhitespace = false) : c ∉ text := by
    intro hmem
    rw [List.all_eq_true.mp h c hmem] at hc
    cases hc
  exact ⟨text, strips_code (hnot '/' (by decide)), hnot '}' (by decide), reads_blanks h⟩

theorem writes_comment {text : List Char} (h : inComment text = true)
    : Writes (['/', '*'] ++ text ++ ['*', '/']) [] :=
  ⟨[' '], (strips_open.append (strips_inComment h)).append strips_close, by decide,
    reads_blanks (by decide)⟩

theorem writes_byte (byte : UInt8)
    : Writes (['0', 'x'] ++ (Nat.toDigits 16 byte.toNat).leftpad 2 '0' ++ [',']) [byte] := by
  have hall : ∀ n : Fin 256, '/' ∉ ['0', 'x'] ++ (Nat.toDigits 16 n.1).leftpad 2 '0' ++ [',']
      ∧ '}' ∉ ['0', 'x'] ++ (Nat.toDigits 16 n.1).leftpad 2 '0' ++ [','] := by decide +kernel
  obtain ⟨hslash, hbrace⟩ := hall ⟨byte.toNat, byte.toNat_lt⟩
  exact ⟨_, strips_code hslash, hbrace, reads_byte byte⟩

/-- The reader finds the bytes behind the first brace. -/
theorem arrayLiteral_eq {before out body : List Char} {bytes : List UInt8}
    (hbefore : Strips false before false out) (hbrace : '{' ∉ out) (hbody : Writes body bytes)
    (after : List Char)
    : arrayLiteral (before ++ '{' :: (body ++ '}' :: after)) = some bytes := by
  obtain ⟨out', hstrips, hbrace', hreads⟩ := hbody
  have hopen : Strips false ['{'] false ['{'] := strips_code (by decide)
  have hclose : Strips false ['}'] false ['}'] := strips_code (by decide)
  have htext : stripComments false (before ++ '{' :: (body ++ '}' :: after))
      = out ++ '{' :: (out' ++ '}' :: stripComments false after) := by
    rw [hbefore, ← List.singleton_append, hopen, hstrips, ← List.singleton_append (x := '}'), hclose]
    rfl
  have hreads' : byteLiterals out' = some bytes := by
    simpa using hreads [] [] rfl
  have hdrop (c : Char) (hc : c ∈ out) : decide (c ≠ '{') = true :=
    decide_eq_true (fun heq => hbrace (heq ▸ hc))
  have htake (c : Char) (hc : c ∈ out') : decide (c ≠ '}') = true :=
    decide_eq_true (fun heq => hbrace' (heq ▸ hc))
  rw [arrayLiteral, htext, List.dropWhile_append_of_pos hdrop]
  show byteLiterals ((out' ++ '}' :: stripComments false after).takeWhile (· ≠ '}')) = some bytes
  rw [List.takeWhile_append_of_pos htake, List.takeWhile_cons_of_neg (by decide), List.append_nil]
  exact hreads'

end LelyRtt.Text
