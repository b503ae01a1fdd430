import LelyRtt.Text.Match

/-!
This module contains the digits of numbers: the ones that are written denote the number.
-/

namespace LelyRtt.Text

section

variable {base : Nat} {f : Char → Char}

theorem natOfDigits_concat (base : Nat) (digits : List Char) (c : Char)
    : natOfDigits base (digits ++ [c]) = natOfDigits base digits * base + (hexDigit c).getD 0 := by
  simp [natOfDigits, List.foldl_append]

/-- Leading zeros change no number. -/
theorem natOfDigits_zeros (base n : Nat) (digits : List Char)
    : natOfDigits base (List.replicate n '0' ++ digits) = natOfDigits base digits := by
  induction n with
  | zero => rfl
  | succ n ih =>
    have hzero : 0 * base + (hexDigit '0').getD 0 = 0 := by
      rw [Nat.zero_mul]
      rfl
    rw [List.replicate_succ, List.cons_append, ← ih, natOfDigits, List.foldl_cons, hzero]
    rfl

/-- The digits of a number, in a case of their own, denote it. -/
theorem toDigits_spec (hbase : 1 < base) (hf : ∀ d < base, hexDigit (f d.digitChar) = some d) (n : Nat)
    : natOfDigits base ((Nat.toDigits base n).map f) = n ∧ (Nat.toDigits base n).map f ≠ []
      ∧ ∀ c ∈ (Nat.toDigits base n).map f, ∃ d < base, c = f d.digitChar := by
  induction n using Nat.strongRecOn with
  | ind n ih =>
    by_cases hn : n < base
    . rw [Nat.toDigits_of_lt_base hn]
      refine ⟨by simp [natOfDigits, hf n hn], by simp, fun c hc => ⟨n, hn, ?_⟩⟩
      exact List.mem_singleton.mp hc
    . have hmod : n % base < base := Nat.mod_lt n (by omega)
      obtain ⟨hrest, hne, hall⟩ := ih (n / base) (Nat.div_lt_self (by omega) hbase)
      rw [Nat.toDigits_of_base_le hbase (by omega), List.map_append, List.map_singleton]
      refine ⟨?_, by simp, fun c hc => ?_⟩
      . rw [natOfDigits_concat, hrest, hf _ hmod, Option.getD_some, Nat.div_add_mod']
      . obtain hc | hc := List.mem_append.mp hc
        . exact hall c hc
        . exact ⟨n % base, hmod, List.mem_singleton.mp hc⟩

end

end LelyRtt.Text
