import Mathlib.Algebra.BigOperators.Group.Finset.Basic
import Mathlib.Algebra.Order.BigOperators.Group.Finset
import Mathlib.Data.Fintype.Basic

/-!
This module contains the sum of a weight over all threads of a finite type, and how it changes when
one thread takes a step.
-/

namespace Conc

variable {α : Type} [Fintype α]

def total (weight : α → Int) : Int := ∑ a, weight a

/-- One thread changes its weight. -/
theorem total_change [DecidableEq α] {weight weight' : α → Int} (a : α)
    (h : ∀ b, b ≠ a → weight' b = weight b)
    : total weight' = total weight + (weight' a - weight a) := by
  have hrest : ∑ b ∈ Finset.univ.erase a, weight' b = ∑ b ∈ Finset.univ.erase a, weight b := by
    apply Finset.sum_congr rfl
    intro b hb
    exact h b (Finset.ne_of_mem_erase hb)
  have hold := Finset.add_sum_erase Finset.univ weight (Finset.mem_univ a)
  have hnew := Finset.add_sum_erase Finset.univ weight' (Finset.mem_univ a)
  unfold total
  omega

theorem total_congr {weight weight' : α → Int} (h : ∀ a, weight' a = weight a)
    : total weight' = total weight :=
  Finset.sum_congr rfl fun a _ => h a

theorem total_nonneg {weight : α → Int} (h : ∀ a, 0 ≤ weight a) : 0 ≤ total weight :=
  Finset.sum_nonneg fun a _ => h a

/-- A thread that counts is seen in the sum. -/
theorem le_total {weight : α → Int} (h : ∀ a, 0 ≤ weight a) (a : α) : weight a ≤ total weight :=
  Finset.single_le_sum (fun b _ => h b) (Finset.mem_univ a)

end Conc
