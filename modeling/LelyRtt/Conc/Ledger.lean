import Mathlib.Data.Set.Insert

/-!
This module contains a ledger of objects that are made, used and freed. An object may only be made
while everything that it needs is alive, only be used while it is alive itself, and only be freed
while nothing that is alive needs it.
-/

namespace Conc

/-- What is done to an object. -/
inductive Act (α : Type) where
  | make (a : α)
  | free (a : α)
  | use (a : α)
  deriving DecidableEq, Repr

variable {α : Type} {needs : α → α → Prop} {live mid live' : Set α} {acts acts' : List (Act α)} {a : α}

/-- The actions are allowed one after the other when `live` is alive, and then `live'` is. -/
inductive Ledger (needs : α → α → Prop) : Set α → List (Act α) → Set α → Prop
  | nil (live : Set α) : Ledger needs live [] live
  | make {live live' : Set α} {a : α} {acts : List (Act α)} (hdead : a ∉ live)
    (hneeds : ∀ b, needs a b → b ∈ live) (h : Ledger needs (insert a live) acts live') :
    Ledger needs live (.make a :: acts) live'
  | free {live live' : Set α} {a : α} {acts : List (Act α)} (hlive : a ∈ live)
    (hneeds : ∀ b ∈ live, ¬needs b a) (h : Ledger needs (live \ {a}) acts live') :
    Ledger needs live (.free a :: acts) live'
  | use {live live' : Set α} {a : α} {acts : List (Act α)} (hlive : a ∈ live)
    (h : Ledger needs live acts live') : Ledger needs live (.use a :: acts) live'

namespace Ledger

theorem append (h : Ledger needs live acts mid) (h' : Ledger needs mid acts' live')
    : Ledger needs live (acts ++ acts') live' := by
  induction h with
  | nil => exact h'
  | make hdead hneeds _ ih => exact .make hdead hneeds (ih h')
  | free hlive hneeds _ ih => exact .free hlive hneeds (ih h')
  | use hlive _ ih => exact .use hlive (ih h')

theorem make_one (hdead : a ∉ live) (hneeds : ∀ b, needs a b → b ∈ live)
    (heq : live' = insert a live) : Ledger needs live [.make a] live' :=
  .make hdead hneeds (heq ▸ .nil _)

theorem free_one (hlive : a ∈ live) (hneeds : ∀ b ∈ live, ¬needs b a) (heq : live' = live \ {a})
    : Ledger needs live [.free a] live' :=
  .free hlive hneeds (heq ▸ .nil _)

theorem use_one (hlive : a ∈ live) : Ledger needs live [.use a] live := .use hlive (.nil _)

/-- Everything that is alive has what it needs. -/
def Closed (needs : α → α → Prop) (live : Set α) : Prop := ∀ a ∈ live, ∀ b, needs a b → b ∈ live

theorem closed (h : Ledger needs live acts live') (hclosed : Closed needs live)
    : Closed needs live' := by
  induction h with
  | nil => exact hclosed
  | make _ hneeds _ ih =>
    refine ih ?_
    rintro b (rfl | hb) c hc
    . exact .inr (hneeds c hc)
    . exact .inr (hclosed b hb c hc)
  | free _ hneeds _ ih =>
    refine ih ?_
    rintro b ⟨hb, hne⟩ c hc
    refine ⟨hclosed b hb c hc, ?_⟩
    rintro rfl
    exact hneeds b hb hc
  | use _ _ ih => exact ih hclosed

variable [DecidableEq α]

open Classical in
/-- Each object is freed as often as it is made, but for what is alive before or afterwards. -/
theorem balanced (h : Ledger needs live acts live') (a : α)
    : acts.count (.make a) + (if a ∈ live then 1 else 0)
      = acts.count (.free a) + (if a ∈ live' then 1 else 0) := by
  induction h with
  | nil => rfl
  | @make live live' b acts hdead _ _ ih =>
    by_cases hab : b = a
    . subst hab
      simp only [Set.mem_insert_iff, true_or, if_true, List.count_cons_self, hdead, if_false] at ih ⊢
      rw [List.count_cons_of_ne (by simp)]
      omega
    . simp only [Set.mem_insert_iff, Ne.symm hab, false_or] at ih
      rw [List.count_cons_of_ne (by simpa using hab), List.count_cons_of_ne (by simp)]
      exact ih
  | @free live live' b acts hlive _ _ ih =>
    by_cases hab : b = a
    . subst hab
      simp only [Set.mem_sdiff, Set.mem_singleton_iff, not_true, and_false, if_false,
        List.count_cons_self, hlive, if_true] at ih ⊢
      rw [List.count_cons_of_ne (by simp)]
      omega
    . simp only [Set.mem_sdiff, Set.mem_singleton_iff, Ne.symm hab, not_false_iff, and_true] at ih
      rw [List.count_cons_of_ne (by simp), List.count_cons_of_ne (by simpa using hab)]
      exact ih
  | use _ _ ih =>
    rw [List.count_cons_of_ne (by simp), List.count_cons_of_ne (by simp)]
    exact ih

end Ledger

end Conc
