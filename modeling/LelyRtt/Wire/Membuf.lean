import Mathlib

/-!
This module contains the memory buffers of Lely (`upstream/include/lely/util/membuf.h` and
`upstream/src/util/membuf.c`) as the SDO client and server use them.
-/

namespace LelyRtt.Wire

/-- `struct membuf`: the bytes from `begin` to `cur`, and the bytes between `begin` and `end`. -/
structure Membuf where
  data : List UInt8
  room : Nat
  fits : data.length ≤ room

/-- `LELY_MEMBUF_SIZE` -/
def membufSize : Nat := 16

/-- The memory of a party: the bits of its `size_t`, and whether `realloc` succeeds. -/
structure Mem where
  width : Nat
  ok : Bool
  wide : 32 ≤ width

/-- The loop of `membuf_reserve` over a `size_t` of `w` bits, for `fuel` rounds. -/
def reserveLoop (w : Nat) : Nat → Nat → Nat → Option Nat
  | 0, _, _ => none
  | fuel + 1, bufSize, need =>
    if bufSize < need then reserveLoop w fuel (bufSize * 2 % 2 ^ w) need else some bufSize

/--
What comes of a call of `membuf_reserve`: a buffer with room, 0 for want of memory, or nothing, since
the call never leaves its loop.
-/
inductive Reserved where
  | room (buf : Membuf)
  | noMem
  | never

namespace Membuf

/-- `MEMBUF_INIT` -/
def init : Membuf := ⟨[], 0, Nat.le_refl 0⟩

/-- `membuf_clear` -/
def clear (b : Membuf) : Membuf := ⟨[], b.room, Nat.zero_le _⟩

/-- `membuf_capacity` -/
def capacity (b : Membuf) : Nat := b.room - b.data.length

/--
`membuf_reserve`. The loop has doubled the size to zero after as many rounds as a `size_t` has bits
(`reserveLoop_beyond`).
-/
def reserve (b : Membuf) (size : Nat) (mem : Mem) : Reserved :=
  if size ≤ b.capacity then .room b
  else
    match reserveLoop mem.width mem.width membufSize ((b.data.length + size) % 2 ^ mem.width) with
    | none => .never
    | some bufSize =>
      -- `realloc` keeps the bytes that there is still room for.
      if mem.ok then .room ⟨b.data.take bufSize, bufSize, List.length_take_le _ _⟩ else .noMem

/-- `membuf_write`, which writes no more than there is room for. -/
def write (b : Membuf) (bytes : List UInt8) : Membuf :=
  ⟨b.data ++ bytes.take b.capacity, b.room, by
    have hfits := b.fits
    simp only [List.length_append, List.length_take, capacity]
    omega⟩

/-- `membuf_seek` with the negative offset `-back`. -/
def seekBack (b : Membuf) (back : Nat) : Membuf :=
  ⟨b.data.take (b.data.length - back), b.room, by
    have hfits := b.fits
    simp only [List.length_take]
    omega⟩

variable {b b' : Membuf}

@[simp] theorem clear_data (b : Membuf) : b.clear.data = [] := rfl

@[simp] theorem clear_room (b : Membuf) : b.clear.room = b.room := rfl

@[simp] theorem write_room (b : Membuf) (bytes : List UInt8) : (b.write bytes).room = b.room := rfl

@[simp] theorem seekBack_zero (b : Membuf) : b.seekBack 0 = b := by
  simp [seekBack]

theorem write_data {bytes : List UInt8} (h : b.data.length + bytes.length ≤ b.room)
    : (b.write bytes).data = b.data ++ bytes := by
  simp only [write, capacity]
  rw [List.take_of_length_le (by omega)]

theorem reserve_of_room {size : Nat} (mem : Mem) (h : b.data.length + size ≤ b.room)
    : b.reserve size mem = .room b := by
  rw [reserve, if_pos (by simp only [capacity]; omega)]

end Membuf

/-! ### When the loop of `membuf_reserve` ends -/

/-- From `16 * 2 ^ i` on, the loop reaches `16 * 2 ^ (i + j)` when nothing before is large enough. -/
theorem reserveLoop_double {w need : Nat} (j : Nat) {i fuel : Nat} (hbits : 4 + i + j < w)
    (hneed : ∀ k < j, membufSize * 2 ^ (i + k) < need)
    : reserveLoop w (fuel + j) (membufSize * 2 ^ i) need
      = reserveLoop w fuel (membufSize * 2 ^ (i + j)) need := by
  induction j generalizing i with
  | zero => rfl
  | succ j ih =>
    have hlt : membufSize * 2 ^ i < need := hneed 0 (Nat.succ_pos j)
    have hmod : membufSize * 2 ^ i * 2 % 2 ^ w = membufSize * 2 ^ (i + 1) := by
      rw [Nat.mul_assoc, ← Nat.pow_succ]
      apply Nat.mod_eq_of_lt
      rw [membufSize, show (16 : Nat) = 2 ^ 4 from rfl, ← Nat.pow_add]
      exact Nat.pow_lt_pow_right (by omega) (by omega)
    rw [← Nat.add_assoc, reserveLoop, if_pos hlt, hmod, @ih (i + 1) (by omega)]
    . rw [show i + 1 + j = i + (j + 1) by omega]
    . intro k hk
      rw [show i + 1 + k = i + (k + 1) by omega]
      exact hneed (k + 1) (by omega)

/-- Zero doubled stays zero. -/
theorem reserveLoop_zero {w need : Nat} (fuel : Nat) (hneed : 0 < need)
    : reserveLoop w fuel 0 need = none := by
  induction fuel with
  | zero => rfl
  | succ fuel ih => rw [reserveLoop, if_pos hneed, Nat.zero_mul, Nat.zero_mod, ih]

theorem reserveLoop_mono {w fuel more bufSize need room : Nat}
    (h : reserveLoop w fuel bufSize need = some room)
    : reserveLoop w (fuel + more) bufSize need = some room := by
  induction fuel generalizing bufSize with
  | zero => cases h
  | succ fuel ih =>
    rw [Nat.add_right_comm, reserveLoop]
    rw [reserveLoop] at h
    split
    . next hlt =>
      rw [if_pos hlt] at h
      exact ih h
    . next hlt =>
      rw [if_neg hlt] at h
      exact h

/-- The least of the sizes `16 * 2 ^ j` that holds what is needed. -/
def grown (need : Nat) : Nat :=
  if need ≤ membufSize then membufSize else grown ((need + 1) / 2) * 2
termination_by need
decreasing_by
  simp only [membufSize] at *
  omega

theorem le_grown (need : Nat) : need ≤ grown need := by
  induction need using grown.induct with
  | case1 need h => rwa [grown, if_pos h]
  | case2 need h ih =>
    rw [grown, if_neg h]
    omega

/-- `grown need` is the first of the sizes `16 * 2 ^ j` that is large enough. -/
theorem grown_eq (need : Nat)
    : ∃ j, grown need = membufSize * 2 ^ j ∧ ∀ k < j, membufSize * 2 ^ k < need := by
  induction need using grown.induct with
  | case1 need h => exact ⟨0, by rw [grown, if_pos h, Nat.pow_zero, Nat.mul_one], by simp⟩
  | case2 need h ih =>
    obtain ⟨j, hj, hlt⟩ := ih
    refine ⟨j + 1, ?_, ?_⟩
    . rw [grown, if_neg h, hj, Nat.pow_succ, Nat.mul_assoc]
    . intro k hk
      cases k with
      | zero =>
        rw [Nat.pow_zero, Nat.mul_one]
        omega
      | succ k =>
        have hhalf := hlt k (by omega)
        rw [Nat.pow_succ, ← Nat.mul_assoc]
        omega

section

variable {w need : Nat} (hw : 4 < w)
include hw

theorem membufSize_double : membufSize * 2 ^ (w - 5) = 2 ^ (w - 1) := by
  rw [membufSize, show (16 : Nat) = 2 ^ 4 from rfl, ← Nat.pow_add]
  congr 1
  omega

/-- What is at most half the range of a `size_t` is reached within its bits. -/
theorem reserveLoop_grown (hneed : need ≤ 2 ^ (w - 1))
    : reserveLoop w w membufSize need = some (grown need) := by
  obtain ⟨j, hj, hlt⟩ := grown_eq need
  have hpow := membufSize_double hw
  have hbits : 4 + j < w := by
    refine Nat.lt_of_not_le fun hge => ?_
    have := hlt (w - 5) (by omega)
    omega
  have hdouble := @reserveLoop_double w need j 0 (w - j) (by omega) (by simpa using hlt)
  rw [Nat.pow_zero, Nat.mul_one, Nat.zero_add, ← hj, Nat.sub_add_cancel (by omega)] at hdouble
  rw [hdouble, show w - j = w - j - 1 + 1 by omega, reserveLoop,
    if_neg (Nat.not_lt_of_le (le_grown need))]

/-- What is more than half the range of a `size_t` is never reached. -/
theorem reserveLoop_beyond (hneed : 2 ^ (w - 1) < need) (fuel : Nat)
    : reserveLoop w fuel membufSize need = none := by
  have hpow := membufSize_double hw
  have hlt : ∀ k < w - 5 + 1, membufSize * 2 ^ (0 + k) < need := by
    intro k hk
    have hmono : 2 ^ (0 + k) ≤ 2 ^ (w - 5) := Nat.pow_le_pow_right (by omega) (by omega)
    have := Nat.mul_le_mul_left membufSize hmono
    omega
  have htop : reserveLoop w (fuel + w) membufSize need = none := by
    have hdouble := @reserveLoop_double w need (w - 5) 0 (fuel + 5) (by omega)
      fun k hk => hlt k (by omega)
    rw [Nat.pow_zero, Nat.mul_one, Nat.zero_add, hpow,
      show fuel + 5 + (w - 5) = fuel + w by omega] at hdouble
    have hwrap : 2 ^ (w - 1) * 2 % 2 ^ w = 0 := by
      rw [← Nat.pow_succ, show (w - 1).succ = w by omega, Nat.mod_self]
    rw [hdouble, reserveLoop, if_pos hneed, hwrap]
    exact reserveLoop_zero _ (by omega)
  cases h : reserveLoop w fuel membufSize need with
  | none => rfl
  | some room =>
    rw [reserveLoop_mono h] at htop
    cases htop

end

/--
Over a `size_t` of `w` bits the loop of `membuf_reserve` ends exactly when the sum of what the buffer
holds and what is asked for, as a `size_t`, is at most half the range, and then with the least size that
holds it. For more than that it doubles `buf_size` to zero and never leaves.
-/
theorem reserveLoop_ends {w : Nat} (hw : 4 < w) (held size room : Nat)
    : (∃ fuel, reserveLoop w fuel membufSize ((held + size) % 2 ^ w) = some room)
      ↔ (held + size) % 2 ^ w ≤ 2 ^ (w - 1) ∧ room = grown ((held + size) % 2 ^ w) := by
  constructor
  . rintro ⟨fuel, h⟩
    have hle : (held + size) % 2 ^ w ≤ 2 ^ (w - 1) := by
      refine Nat.le_of_not_lt fun hgt => ?_
      rw [reserveLoop_beyond hw hgt fuel] at h
      cases h
    have hmore := @reserveLoop_mono w fuel w _ _ _ h
    rw [Nat.add_comm, reserveLoop_mono (reserveLoop_grown hw hle)] at hmore
    exact ⟨hle, (Option.some.inj hmore).symm⟩
  . rintro ⟨hle, rfl⟩
    exact ⟨w, reserveLoop_grown hw hle⟩

/--
A 32-bit server that is asked to reserve one byte more than 2 GiB stays in the loop, and one whose sum
wraps to zero leaves it with sixteen bytes.
-/
theorem reserveLoop_ends_two_gib
    : (¬ ∃ fuel, reserveLoop 32 fuel membufSize ((0 + (2 ^ 31 + 1)) % 2 ^ 32) = some (2 ^ 32))
      ∧ ∃ fuel, reserveLoop 32 fuel membufSize ((1 + (2 ^ 32 - 1)) % 2 ^ 32) = some 16 :=
  ⟨fun h => absurd ((reserveLoop_ends (by decide) _ _ _).1 h).1 (by decide),
    (reserveLoop_ends (by decide) _ _ _).2 ⟨by decide, by rw [grown]; rfl⟩⟩

/-! ### What `membuf_reserve` leaves -/

namespace Membuf

variable {b b' : Membuf} {size : Nat} {mem : Mem}

/-- The call ends with room unless there is no memory or the loop never ends. -/
theorem reserve_data (hfits : b.data.length + size < 2 ^ mem.width) (h : b.reserve size mem = .room b')
    : b'.data = b.data ∧ b.data.length + size ≤ b'.room := by
  have hheld := b.fits
  have hwide := mem.wide
  unfold reserve at h
  split at h
  . next hcap =>
    cases h
    simp only [capacity] at hcap
    exact ⟨rfl, by omega⟩
  . rw [Nat.mod_eq_of_lt hfits] at h
    by_cases hneed : b.data.length + size ≤ 2 ^ (mem.width - 1)
    . rw [reserveLoop_grown (by omega) hneed] at h
      have hle := le_grown (b.data.length + size)
      dsimp only at h
      split at h
      . cases h
        exact ⟨List.take_of_length_le (by omega), hle⟩
      . cases h
    . rw [reserveLoop_beyond (by omega) (Nat.lt_of_not_le hneed)] at h
      cases h

theorem reserve_noMem (h : b.reserve size mem = .noMem) : mem.ok = false := by
  unfold reserve at h
  split at h
  . cases h
  . split at h
    . cases h
    . split at h
      . cases h
      . next hok => exact Bool.eq_false_iff.2 hok

theorem reserve_never (hfits : b.data.length + size < 2 ^ mem.width) (h : b.reserve size mem = .never)
    : 2 ^ (mem.width - 1) < b.data.length + size := by
  have hwide := mem.wide
  unfold reserve at h
  split at h
  . cases h
  . rw [Nat.mod_eq_of_lt hfits] at h
    refine Nat.lt_of_not_le fun hle => ?_
    rw [reserveLoop_grown (by omega) hle] at h
    dsimp only at h
    split at h <;> cases h

end Membuf

end LelyRtt.Wire
