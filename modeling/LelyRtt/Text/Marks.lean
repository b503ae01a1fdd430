import Mathlib.Data.List.Basic
import Mathlib.Tactic.Common

/-!
This module contains lists with marked elements: a marked element and the unmarked ones behind it are
a chunk, and the search for a mark finds a chunk.
-/

namespace LelyRtt.Text

variable {α κ : Type}

/-- A part of a list, `l[start:stop]`. -/
def segment (l : List α) (start stop : Nat) : List α := (l.drop start).take (stop - start)

/-- The loop over a list that looks for the first mark `wanted` and for the next mark behind it. -/
def findRange [DecidableEq κ] (mark : α → Option κ) (wanted : κ)
    : List α → Nat → Option Nat → Option (Nat × Nat)
  | [], i, found => found.map fun start => (start, i)
  | x :: l, i, found =>
    match mark x, found with
    | none, _ => findRange mark wanted l (i + 1) found
    | some _, some start => some (start, i)
    | some current, none => findRange mark wanted l (i + 1) (if current = wanted then some i else none)

/-- A marked element and unmarked ones behind it. -/
inductive Chunk (mark : α → Option κ) : List α → Prop
  | mk {x : α} {body : List α} : (mark x).isSome → (∀ y ∈ body, mark y = none) → Chunk mark (x :: body)

/-- The mark of a chunk. -/
def key (mark : α → Option κ) (chunk : List α) : Option κ := chunk.head?.bind mark

/-- A list that consists of unmarked elements and chunks behind them. -/
structure Chunked (mark : α → Option κ) (l before : List α) (chunks : List (List α)) : Prop where
  list : l = before ++ chunks.flatten
  before : ∀ x ∈ before, mark x = none
  chunk : ∀ c ∈ chunks, Chunk mark c

section

variable {mark : α → Option κ} {l before body : List α} {chunks : List (List α)} {i : Nat}

theorem segment_append (a b c : List α) : segment (a ++ (b ++ c)) a.length (a.length + b.length) = b := by
  rw [segment, List.drop_left, Nat.add_sub_cancel_left, List.take_left]

/-- The parts of a list `l[:n * k]` of length `k`. -/
theorem segments_flatMap (l : List α) (k n : Nat)
    : (List.range n).flatMap (fun i => segment l (k * i) (k * i + k)) = l.take (k * n) := by
  induction n with
  | zero => simp
  | succ n ih =>
    rw [List.range_succ, List.flatMap_append, ih, Nat.mul_succ, List.take_add]
    simp [segment]

/-- The first element of a list with a property. -/
theorem findIdx?_eq_append {p : α → Bool} {k : Nat}
    : l.findIdx? p = some k
      ↔ ∃ a x b, l = a ++ x :: b ∧ a.length = k ∧ p x = true ∧ ∀ y ∈ a, p y = false := by
  induction l generalizing k with
  | nil => simp
  | cons x l ih =>
    rw [List.findIdx?_cons]
    cases hx : p x with
    | true =>
      simp only [if_true, Option.some_inj]
      constructor
      . rintro rfl
        exact ⟨[], x, l, rfl, rfl, hx, by simp⟩
      . rintro ⟨a, y, b, heq, hlength, _, hall⟩
        cases a with
        | nil => exact hlength
        | cons x' a =>
          cases heq
          rw [hall x List.mem_cons_self] at hx
          cases hx
    | false =>
      simp only [Bool.false_eq_true, if_false, Option.map_eq_some_iff]
      constructor
      . rintro ⟨k', hk', rfl⟩
        obtain ⟨a, y, b, rfl, rfl, hy, hall⟩ := ih.mp hk'
        exact ⟨x :: a, y, b, rfl, rfl, hy, by simpa [hx] using hall⟩
      . rintro ⟨a, y, b, heq, rfl, hy, hall⟩
        cases a with
        | nil =>
          cases heq
          rw [hx] at hy
          cases hy
        | cons x' a =>
          cases heq
          refine ⟨a.length, ih.mpr ⟨a, y, b, rfl, rfl, hy, fun z hz => hall z (List.mem_cons_of_mem _ hz)⟩, rfl⟩

theorem exists_chunked (mark : α → Option κ) (l : List α) : ∃ before chunks, Chunked mark l before chunks := by
  induction l with
  | nil => exact ⟨[], [], rfl, by simp, by simp⟩
  | cons x l ih =>
    obtain ⟨before, chunks, hl, hbefore, hchunk⟩ := ih
    cases hx : mark x with
    | none =>
      refine ⟨x :: before, chunks, by rw [hl]; rfl, ?_, hchunk⟩
      simpa [hx] using hbefore
    | some k =>
      refine ⟨[], (x :: before) :: chunks, by rw [hl]; rfl, by simp, ?_⟩
      intro c hc
      obtain rfl | hc := List.mem_cons.mp hc
      . exact .mk (by rw [hx]; rfl) hbefore
      . exact hchunk c hc

theorem Chunk.ne_nil (h : Chunk mark body) : body ≠ [] := by
  cases h
  simp

theorem Chunk.key_isSome (h : Chunk mark body) : (key mark body).isSome := by
  cases h with
  | mk hx => exact hx

/-- A chunk stays one, with its mark, when a part behind a head is replaced by unmarked elements. -/
theorem Chunk.edit {x : α} {a b c : List α} (b' : List α) (h : Chunk mark (a ++ (x :: b ++ c)))
    (hb' : ∀ y ∈ b', mark y = none ∨ y ∈ b)
    : Chunk mark (a ++ (x :: b' ++ c)) ∧ key mark (a ++ (x :: b' ++ c)) = key mark (a ++ (x :: b ++ c)) := by
  cases a with
  | nil =>
    cases h with
    | mk hx hbody =>
      refine ⟨.mk hx fun y hy => ?_, rfl⟩
      obtain hy | hy := List.mem_append.mp hy
      . exact (hb' y hy).elim id fun hmem => hbody y (List.mem_append_left _ hmem)
      . exact hbody y (List.mem_append_right _ hy)
  | cons x' a =>
    cases h with
    | mk hx hbody =>
      refine ⟨.mk hx fun y hy => ?_, rfl⟩
      change y ∈ a ++ (x :: b' ++ c) at hy
      change ∀ y ∈ a ++ (x :: b ++ c), mark y = none at hbody
      simp only [List.mem_append, List.mem_cons, List.cons_append] at hy hbody
      obtain hy | rfl | hy | hy := hy
      . exact hbody y (.inl hy)
      . exact hbody y (.inr (.inl rfl))
      . exact (hb' y hy).elim id fun hmem => hbody y (.inr (.inr (.inl hmem)))
      . exact hbody y (.inr (.inr (.inr hy)))

theorem Chunked.set (h : Chunked mark l before chunks) (hbody : Chunk mark body)
    : Chunked mark (before ++ (chunks.set i body).flatten) before (chunks.set i body) := by
  refine ⟨rfl, h.before, fun c hc => ?_⟩
  obtain hc | rfl := List.mem_or_eq_of_mem_set hc
  . exact h.chunk c hc
  . exact hbody

section

variable [DecidableEq κ] {wanted : κ} {found : Option Nat}

theorem findRange_none {x : α} (hx : mark x = none)
    : findRange mark wanted (x :: l) i found = findRange mark wanted l (i + 1) found := by
  simp only [findRange, hx]

theorem findRange_some {x : α} {current : κ} (hx : mark x = some current)
    : findRange mark wanted (x :: l) i found = match found with
      | some start => some (start, i)
      | none => findRange mark wanted l (i + 1) (if current = wanted then some i else none) := by
  cases found <;> simp only [findRange, hx]

theorem findRange_unmarked (h : ∀ x ∈ body, mark x = none) (l : List α)
    : findRange mark wanted (body ++ l) i found = findRange mark wanted l (i + body.length) found := by
  induction body generalizing i with
  | nil => rfl
  | cons x body ih =>
    rw [List.cons_append, findRange_none (h x List.mem_cons_self),
      ih fun y hy => h y (List.mem_cons_of_mem _ hy), List.length_cons, Nat.add_assoc, Nat.add_comm 1]

/-- Behind the wanted chunk the search ends. -/
theorem findRange_found (h : ∀ c ∈ chunks, Chunk mark c) (start : Nat)
    : findRange mark wanted chunks.flatten i (some start) = some (start, i) := by
  cases chunks with
  | nil => rfl
  | cons c chunks =>
    cases h c List.mem_cons_self with
    | mk hx _ =>
      obtain ⟨k, hk⟩ := Option.isSome_iff_exists.mp hx
      rw [List.flatten_cons, List.cons_append, findRange_some hk]

theorem findRange_chunks (h : ∀ c ∈ chunks, Chunk mark c)
    : findRange mark wanted chunks.flatten i none
      = (chunks.findIdx? fun c => key mark c = some wanted).map fun k =>
        (i + (chunks.take k).flatten.length, i + (chunks.take (k + 1)).flatten.length) := by
  induction chunks generalizing i with
  | nil => rfl
  | cons c chunks ih =>
    have hrest : ∀ c ∈ chunks, Chunk mark c := fun c hc => h c (List.mem_cons_of_mem _ hc)
    cases h c List.mem_cons_self with
    | @mk x body hx hbody =>
      obtain ⟨current, hcurrent⟩ := Option.isSome_iff_exists.mp hx
      have hkey : key mark (x :: body) = some current := hcurrent
      rw [List.flatten_cons, List.cons_append, findRange_some hcurrent, List.findIdx?_cons, hkey]
      simp only [findRange_unmarked hbody]
      by_cases heq : current = wanted
      . simp [heq, findRange_found hrest, Nat.add_assoc, Nat.add_comm 1]
      . rw [if_neg heq, ih hrest]
        simp only [Option.some_inj, heq, decide_false, Bool.false_eq_true, if_false, Option.map_map]
        congr 1
        funext k
        simp only [Function.comp_apply, List.take_succ_cons, List.flatten_cons, List.length_append,
          List.length_cons, Prod.mk.injEq]
        omega

/-- The search finds the first chunk with the wanted mark. -/
theorem Chunked.findRange (h : Chunked mark l before chunks)
    : findRange mark wanted l i none
      = (chunks.findIdx? fun c => key mark c = some wanted).map fun k =>
        (i + before.length + (chunks.take k).flatten.length,
          i + before.length + (chunks.take (k + 1)).flatten.length) := by
  rw [h.list, findRange_unmarked h.before, findRange_chunks h.chunk]

end

end

end LelyRtt.Text
