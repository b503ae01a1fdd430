import Mathlib.Data.List.Basic
import Mathlib.Tactic.Common

/-!
This module contains the dictionaries of Python: a key keeps the place of its first use and the value
of its last.
-/

namespace LelyRtt.Text

variable {κ ν : Type} [DecidableEq κ]

/-- `d[k] = v` -/
def dictSet : List (κ × ν) → κ → ν → List (κ × ν)
  | [], k, v => [(k, v)]
  | (k', v') :: d, k, v => if k' = k then (k, v) :: d else (k', v') :: dictSet d k v

/-- A dictionary that is filled with items. -/
def dictOf (items : List (κ × ν)) : List (κ × ν) :=
  items.foldl (fun d item => dictSet d item.1 item.2) []

section

variable {d : List (κ × ν)} {k k' : κ} {v : ν}

theorem mem_keys_dictSet : k' ∈ (dictSet d k v).map (·.1) ↔ k' = k ∨ k' ∈ d.map (·.1) := by
  induction d with
  | nil => simp [dictSet]
  | cons entry d ih =>
    obtain ⟨k₁, v₁⟩ := entry
    rw [dictSet]
    split
    next h =>
      subst h
      simp
    next h => simp only [List.map_cons, List.mem_cons, ih, or_left_comm]

theorem nodup_dictSet (h : (d.map (·.1)).Nodup) : ((dictSet d k v).map (·.1)).Nodup := by
  induction d with
  | nil => simp [dictSet]
  | cons entry d ih =>
    obtain ⟨k₁, v₁⟩ := entry
    rw [List.map_cons, List.nodup_cons] at h
    rw [dictSet]
    split
    next heq =>
      subst heq
      simpa using h
    next heq =>
      rw [List.map_cons, List.nodup_cons, mem_keys_dictSet]
      exact ⟨fun hmem => hmem.elim heq h.1, ih h.2⟩

theorem nodup_dictOf (items : List (κ × ν)) : ((dictOf items).map (·.1)).Nodup := by
  unfold dictOf
  suffices h : ∀ d : List (κ × ν), (d.map (·.1)).Nodup →
      ((items.foldl (fun d item => dictSet d item.1 item.2) d).map (·.1)).Nodup from h [] (by simp)
  induction items with
  | nil => exact fun _ h => h
  | cons item items ih => exact fun d h => ih _ (nodup_dictSet h)

end

section

variable [BEq κ] [LawfulBEq κ] {d : List (κ × ν)} {k k' : κ} {v v' : ν} {items : List (κ × ν)}

theorem lookup_cons_eq (d : List (κ × ν)) (k k' : κ) (v : ν)
    : List.lookup k' ((k, v) :: d) = if k' = k then some v else d.lookup k' := by
  rw [List.lookup_cons]
  by_cases h : k' = k
  . simp [h]
  . have hbeq : (k' == k) = false := by simpa using h
    rw [hbeq, if_neg h]

theorem lookup_dictSet (d : List (κ × ν)) (k k' : κ) (v : ν)
    : (dictSet d k v).lookup k' = if k' = k then some v else d.lookup k' := by
  induction d with
  | nil => exact lookup_cons_eq [] k k' v
  | cons entry d ih =>
    obtain ⟨k₁, v₁⟩ := entry
    rw [dictSet]
    by_cases hk₁ : k₁ = k
    . subst hk₁
      rw [if_pos rfl, lookup_cons_eq, lookup_cons_eq]
      split <;> rfl
    . rw [if_neg hk₁, lookup_cons_eq, lookup_cons_eq, ih]
      by_cases h : k' = k₁
      . simp [h, hk₁]
      . simp [h]

/-- The items of a dictionary are those that a look-up finds. -/
theorem mem_dict (h : (d.map (·.1)).Nodup) : (k, v) ∈ d ↔ d.lookup k = some v := by
  induction d with
  | nil => simp
  | cons entry d ih =>
    obtain ⟨k₁, v₁⟩ := entry
    rw [List.map_cons, List.nodup_cons] at h
    rw [List.mem_cons, lookup_cons_eq]
    by_cases hk : k = k₁
    . have hnot : (k, v) ∉ d := fun hmem => h.1 (List.mem_map.mpr ⟨(k, v), hmem, hk⟩)
      subst hk
      simp [hnot, eq_comm]
    . rw [if_neg hk, ih h.2]
      simp [hk]

/-- A key has the value of its last use. -/
theorem lookup_dictOf (items : List (κ × ν)) (k : κ) : (dictOf items).lookup k = items.reverse.lookup k := by
  unfold dictOf
  suffices h : ∀ d : List (κ × ν), (items.foldl (fun d item => dictSet d item.1 item.2) d).lookup k
      = (items.reverse.lookup k).or (d.lookup k) by simpa using h []
  induction items with
  | nil => simp
  | cons item items ih =>
    intro d
    obtain ⟨k₁, v₁⟩ := item
    rw [List.foldl_cons, ih, lookup_dictSet, List.reverse_cons, List.lookup_append, Option.or_assoc,
      lookup_cons_eq]
    by_cases h : k = k₁ <;> simp [h]

theorem lookup_map {ν' : Type} (f : ν → ν') (d : List (κ × ν)) (k : κ)
    : (d.map fun entry => (entry.1, f entry.2)).lookup k = (d.lookup k).map f := by
  induction d with
  | nil => rfl
  | cons entry d ih =>
    obtain ⟨k₁, v₁⟩ := entry
    rw [List.map_cons, lookup_cons_eq, lookup_cons_eq, ih]
    split <;> rfl

/-- A dictionary whose values are changed one by one. -/
theorem lookup_dictOf_map {ν' : Type} (f : ν → ν') (items : List (κ × ν)) (k : κ)
    : (dictOf (items.map fun entry => (entry.1, f entry.2))).lookup k = ((dictOf items).lookup k).map f := by
  rw [lookup_dictOf, lookup_dictOf, ← List.map_reverse, lookup_map]

/-- The entries of other keys do not matter. -/
theorem lookup_dictOf_filter {α : Type} {l : List α} {p : α → Bool} {f : α → κ × ν}
    (h : ∀ x ∈ l, p x = false → (f x).1 ≠ k)
    : (dictOf ((l.filter p).map f)).lookup k = (dictOf (l.map f)).lookup k := by
  have hlookup : ∀ l : List α, (∀ x ∈ l, p x = false → (f x).1 ≠ k) →
      ((l.filter p).map f).lookup k = (l.map f).lookup k := by
    intro l hl
    induction l with
    | nil => rfl
    | cons x l ih =>
      have hrest := ih fun y hy => hl y (List.mem_cons_of_mem _ hy)
      obtain ⟨k₁, v₁, hentry⟩ : ∃ k₁ v₁, f x = (k₁, v₁) := ⟨_, _, rfl⟩
      rw [List.filter_cons, List.map_cons, hentry, lookup_cons_eq]
      cases hx : p x with
      | true => rw [if_pos rfl, List.map_cons, hentry, lookup_cons_eq, hrest]
      | false =>
        have hne : k ≠ k₁ := by
          rintro rfl
          exact hl x List.mem_cons_self hx (congrArg Prod.fst hentry)
        rw [if_neg (by simp), if_neg hne, hrest]
  rw [lookup_dictOf, lookup_dictOf, ← List.map_reverse, ← List.map_reverse, ← List.filter_reverse]
  exact hlookup l.reverse fun x hx => h x (List.mem_reverse.mp hx)

theorem mem_of_lookup {v : ν} (h : (dictOf items).lookup k = some v) : (k, v) ∈ items := by
  rw [lookup_dictOf] at h
  obtain ⟨before, after, heq, _⟩ := List.lookup_eq_some_iff.mp h
  rw [← List.mem_reverse, heq]
  simp

end

end LelyRtt.Text
