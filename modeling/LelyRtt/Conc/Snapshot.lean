import LelyRtt.Conc.Seqlock

/-!
This module contains readers that load one word at a time beside the writer, and the reader that
takes a snapshot of a single cell.
-/

namespace Conc

variable {ι E ρ : Type}

/-- A reader: the word that it loads next, and what it does with the value. -/
structure Reader (ι ρ : Type) where
  load : ρ → Option (Word ι)
  next : ρ → BitVec 32 → ρ

/-- A writer and a reader. -/
structure Sys (ι E ρ : Type) where
  writer : Publisher ι E
  reader : ρ

namespace Sys

variable [DecidableEq ι]

inductive Step (L : Layout ι E) (R : Reader ι ρ) : Sys ι E ρ → Sys ι E ρ → Prop where
  | write (s : Sys ι E ρ) (w : Publisher ι E) (h : s.writer.Step L w) : Step L R s { s with writer := w }
  | load (s : Sys ι E ρ) (x : Word ι) (h : R.load s.reader = some x) :
      Step L R s { s with reader := R.next s.reader (s.writer.mem x) }

/-- Any number of steps, in any order. -/
def Steps (L : Layout ι E) (R : Reader ι ρ) : Sys ι E ρ → Sys ι E ρ → Prop :=
  Relation.ReflTransGen (Step L R)

variable {L : Layout ι E} {R : Reader ι ρ} {s s' : Sys ι E ρ}

theorem Step.inv (h : Step L R s s') (hinv : s.writer.Inv L) : s'.writer.Inv L := by
  cases h with
  | write w hw => exact hinv.step hw
  | load => exact hinv

theorem Step.closed_le (h : Step L R s s') : s.writer.closed <+: s'.writer.closed := by
  cases h with
  | write w hw => exact hw.closed_le
  | load => exact List.prefix_rfl

theorem Step.marked_le (h : Step L R s s') : s.writer.marked <+: s'.writer.marked := by
  cases h with
  | write w hw => exact hw.marked_le
  | load => exact List.prefix_rfl

theorem Steps.inv (h : Steps L R s s') (hinv : s.writer.Inv L) : s'.writer.Inv L := by
  induction h with
  | refl => exact hinv
  | tail _ hstep ih => exact hstep.inv ih

theorem Steps.closed_le (h : Steps L R s s') : s.writer.closed <+: s'.writer.closed := by
  induction h with
  | refl => exact List.prefix_rfl
  | tail _ hstep ih => exact ih.trans hstep.closed_le

theorem Steps.marked_le (h : Steps L R s s') : s.writer.marked <+: s'.writer.marked := by
  induction h with
  | refl => exact List.prefix_rfl
  | tail _ hstep ih => exact ih.trans hstep.marked_le

end Sys

/--
A reader of one cell. It is about to load the guard for the first time, has found the guard `b` and
loaded `got` since then, or has ended with the data words and the sequence number or without any
publication.
-/
inductive Getter where
  | start
  | loading (b : BitVec 32) (got : List (BitVec 32))
  | done (r : Option (List (BitVec 32) × BitVec 32))
  deriving DecidableEq, Repr

/-- The reader of one cell with `n` data words. -/
def getter (n : Nat) : Reader Unit Getter where
  load
    | .start => some (.guard ())
    | .loading _ got => some (if got.length < n then .data () got.length else .guard ())
    | .done _ => none
  next
    | .start, v =>
      if v = 0#32 then
        .done none
      else if Guard.isOdd v then
        .start
      else
        .loading v []
    | .loading b got, v =>
      if got.length < n then
        .loading b (got ++ [v])
      else if b = v ∧ Guard.isOdd v = false then
        .done (some (got, v / 2#32))
      else
        .start
    | .done r, _ => .done r

namespace Getter

variable {L : Layout Unit E} {s s' : Sys Unit E Getter}

@[simp]
theorem within_unit (c : Unit) (ps : List (Publication Unit E)) : Publisher.within c ps = ps := by
  simp [Publisher.within]

/-- What a reader knows whose call came after `n₀` publications. -/
def Ok (L : Layout Unit E) (n₀ : Nat) (s : Sys Unit E Getter) : Prop :=
  match s.reader with
  | .loading b got => Guard.isOdd b = false ∧ b ≠ 0#32 ∧ got.length ≤ L.size
      ∧ ∃ k ≥ n₀, s.writer.Attempt () b got k
  | _ => True

theorem Ok.step {n₀ : Nat} (h : Ok L n₀ s) (hinv : s.writer.Inv L)
    (hn : n₀ ≤ s.writer.closed.length) (hstep : Sys.Step L (getter L.size) s s')
    : Ok L n₀ s' := by
  cases hstep with
  | write w hw =>
    unfold Ok at *
    cases hr : s.reader with
    | loading b got =>
      simp only [hr] at h ⊢
      obtain ⟨heven, hne, hlen, k, hk, ha⟩ := h
      exact ⟨heven, hne, hlen, k, hk, ha.step hinv hw⟩
    | start => trivial
    | done r => trivial
  | load x hx =>
    unfold Ok at *
    cases hr : s.reader with
    | start =>
      simp only [hr, getter, Option.some.injEq] at hx
      subst hx
      simp only [getter]
      by_cases hz : s.writer.mem (.guard ()) = 0#32
      . rw [if_pos hz]
        trivial
      . rw [if_neg hz]
        by_cases hodd : Guard.isOdd (s.writer.mem (.guard ())) = true
        . rw [if_pos hodd]
          trivial
        . rw [if_neg hodd]
          have heven : Guard.isOdd (s.writer.mem (.guard ())) = false := by simpa using hodd
          exact ⟨heven, hz, Nat.zero_le _, _, by simpa using hn, .begin hinv heven⟩
    | loading b got =>
      simp only [hr, getter, Option.some.injEq] at hx h ⊢
      obtain ⟨heven, hne, hlen, k, hk, ha⟩ := h
      by_cases hlt : got.length < L.size
      . rw [if_pos hlt] at hx
        subst hx
        rw [if_pos hlt]
        exact ⟨heven, hne, by simpa [Nat.succ_le_iff] using hlt, k, hk, ha.load hinv hlt⟩
      . rw [if_neg hlt]
        split
        next heq => split at heq <;> simp at heq
        next => trivial
    | done r => simp [hr, getter] at hx

/-- The state in which the reader loads the word that it ends with. -/
def Returns (n : Nat) (s : Sys Unit E Getter) (r : Option (List (BitVec 32) × BitVec 32)) : Prop :=
  ∃ x, (getter n).load s.reader = some x
    ∧ (getter n).next s.reader (s.writer.mem x) = .done r

/-- A reader that ends without a value has found the words as they are before the first store. -/
theorem returns_none (hinv : s.writer.Inv L) (h : Returns L.size s none)
    : s.writer.opened = [] := by
  obtain ⟨x, hx, hnext⟩ := h
  cases hr : s.reader with
  | start =>
    simp only [hr, getter, Option.some.injEq] at hx hnext
    subst hx
    split at hnext
    next hz =>
      have hrest := hinv.rest_of_even (c := ()) (by rw [hz]; rfl)
      have hlen := Guard.closing_eq_zero.mp (hrest.guard.symm.trans hz)
      rw [← within_unit () s.writer.opened, hrest.opened]
      exact List.eq_nil_of_length_eq_zero hlen
    next => split at hnext <;> cases hnext
  | loading b got =>
    simp only [hr, getter, Option.some.injEq] at hx hnext
    split at hnext
    . cases hnext
    . split at hnext <;> cases hnext
  | done r => simp [hr, getter] at hx

/-- A reader that ends with a value has the one of the last publication. -/
theorem returns_some {n₀ : Nat} (hinv : s.writer.Inv L) (hok : Ok L n₀ s)
    (hlt : s.writer.closed.length - n₀ < Guard.period) {got : List (BitVec 32)} {sequence : BitVec 32}
    (h : Returns L.size s (some (got, sequence)))
    : ∃ p, s.writer.closed.getLast? = some p ∧ got = p.data
        ∧ sequence = Guard.number s.writer.closed.length
        ∧ s.writer.mem (.guard ()) = Guard.closing s.writer.closed.length := by
  obtain ⟨x, hx, hnext⟩ := h
  unfold Ok at hok
  cases hr : s.reader with
  | start =>
    simp only [hr, getter, Option.some.injEq] at hx hnext
    split at hnext
    . cases hnext
    . split at hnext <;> cases hnext
  | loading b got' =>
    simp only [hr, getter, Option.some.injEq] at hx hnext hok
    obtain ⟨heven, hne, hlen, k, hk, ha⟩ := hok
    by_cases hsize : got'.length < L.size
    . rw [if_pos hsize] at hnext
      cases hnext
    . rw [if_neg hsize] at hx hnext
      subst hx
      split at hnext
      next hb =>
        obtain ⟨rfl, rfl⟩ : got' = got ∧ s.writer.mem (.guard ()) / 2#32 = sequence := by
          simpa using hnext
        obtain ⟨p, hp, hdata⟩ := ha.finish hinv (by omega) hb.1 heven hne
          (by rw [within_unit]; omega)
        rw [within_unit] at hp
        have hguard := (hinv.rest_of_even hb.2).guard
        rw [within_unit] at hguard
        exact ⟨p, hp, hdata, by rw [hguard]; rfl, hguard⟩
      next => cases hnext
  | done r => simp [hr, getter] at hx

/-- What a reader knows after any run from its call. -/
theorem ok_of_steps (hinv : s.writer.Inv L) (hstart : s.reader = .start)
    (hsteps : Sys.Steps L (getter L.size) s s') : Ok L s.writer.closed.length s' := by
  have hrun : ∀ {t}, Sys.Steps L (getter L.size) s t →
      Ok L s.writer.closed.length t := by
    intro t ht
    induction ht with
    | refl => simp [Ok, hstart]
    | tail hpre hstep ih =>
      exact ih.step (Sys.Steps.inv hpre hinv) (Sys.Steps.closed_le hpre).length_le hstep
  exact hrun hsteps

end Getter

end Conc
