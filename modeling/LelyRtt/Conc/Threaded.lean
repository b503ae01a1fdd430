import Mathlib.Data.List.Basic
import Mathlib.Data.List.Nodup
import Mathlib.Logic.Function.Basic

/-!
This module contains lists that are threaded through a heap by a `next` pointer in each cell.
-/

namespace Conc

variable {ι : Type} {next next' : ι → Option ι}

/-- Every cell of the list points to the cell behind it, and the last one to nothing. -/
def Threaded (next : ι → Option ι) : List ι → Prop
  | [] => True
  | a :: l => next a = l.head? ∧ Threaded next l

namespace Threaded

@[simp]
theorem nil : Threaded next [] := by
  simp [Threaded]

@[simp]
theorem cons_iff (a : ι) (l : List ι)
    : Threaded next (a :: l) ↔ next a = l.head? ∧ Threaded next l := by
  simp [Threaded]

theorem congr {l : List ι} (h : Threaded next l) (heq : ∀ a ∈ l, next' a = next a)
    : Threaded next' l := by
  induction l with
  | nil => simp
  | cons a l ih =>
    simp only [cons_iff, List.mem_cons, forall_eq_or_imp] at *
    exact ⟨heq.1.trans h.1, ih h.2 heq.2⟩

/-- The cell behind a cell in the middle of the list. -/
theorem next_eq {l : List ι} {a : ι} {rest : List ι} (h : Threaded next (l ++ a :: rest))
    : next a = rest.head? := by
  induction l with
  | nil => exact h.1
  | cons b l ih => exact ih h.2

variable [DecidableEq ι]

theorem update_of_notMem {l : List ι} {a : ι} {x : Option ι} (h : Threaded next l) (ha : a ∉ l)
    : Threaded (Function.update next a x) l := by
  apply h.congr
  intro b hb
  have hne : b ≠ a := fun heq => ha (heq ▸ hb)
  simp [hne]

/-- Link a cell that points to nothing behind the last cell `t`. -/
theorem link {l : List ι} {t a : ι} (h : Threaded next (l ++ [t])) (hnodup : (l ++ [t]).Nodup)
    (ha : next a = none) (hne : a ∉ l ++ [t])
    : Threaded (Function.update next t (some a)) (l ++ [t, a]) := by
  induction l with
  | nil =>
    have hta : a ≠ t := by simpa using hne
    simp [ha, hta]
  | cons b l ih =>
    simp only [List.cons_append, List.nodup_cons, List.mem_cons, not_or, cons_iff] at *
    have hbt : b ≠ t := by
      intro heq
      apply hnodup.1
      simp [heq]
    refine ⟨?_, ih h.2 hnodup.2 hne.2⟩
    rw [Function.update_of_ne hbt, h.1]
    cases l <;> simp

/-- Unlink the cell `a` behind the cell `p`. -/
theorem unlink {l rest : List ι} {p a : ι} (h : Threaded next (l ++ p :: a :: rest))
    (hnodup : (l ++ p :: a :: rest).Nodup)
    : Threaded (Function.update next p (next a)) (l ++ p :: rest) := by
  induction l with
  | nil =>
    simp only [List.nil_append, cons_iff] at *
    simp only [List.nodup_cons, List.mem_cons, not_or] at hnodup
    refine ⟨?_, h.2.2.update_of_notMem hnodup.1.2⟩
    simp [h.2.1]
  | cons b l ih =>
    simp only [List.cons_append, List.nodup_cons, cons_iff] at *
    have hbp : b ≠ p := by
      intro heq
      apply hnodup.1
      simp [heq]
    refine ⟨?_, ih h.2 hnodup.2⟩
    rw [Function.update_of_ne hbp, h.1]
    cases l <;> simp

end Threaded

end Conc
