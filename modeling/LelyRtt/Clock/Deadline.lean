import Mathlib.Algebra.BigOperators.Group.List.Basic
import Mathlib.Algebra.Order.Ring.Int
import Mathlib.Tactic.Ring

/-!
This module contains `lely_rtt_time_now`, which extends the tick counter of RT-Thread to a time, and
`lely_rtt_deadline_ticks`, which converts a deadline to a delay of the one-shot timer.
-/

namespace LelyRtt.Clock

/-- `struct timespec` -/
@[ext]
structure TimeSpec where
  sec : Int
  nsec : Int
  deriving DecidableEq, Repr

/-- `struct lely_rtt_time_state` -/
structure TimeState where
  lastTick : BitVec 32
  ticks : BitVec 64
  initialized : Bool
  deriving DecidableEq, Repr

/--
`lely_rtt_time_now` with `RT_TICK_PER_SECOND` `hz` and a `time_t` of `w` bits, for the tick counter
`now`.
-/
def timeNow (hz w : Nat) (st : TimeState) (now : BitVec 32) : TimeSpec × TimeState :=
  let st : TimeState :=
    if !st.initialized then
      ⟨now, 0, true⟩
    else
      let delta := now - st.lastTick
      ⟨now, st.ticks + delta.setWidth 64, true⟩
  let ticks := st.ticks.toNat
  let rem := ticks % hz
  (⟨Int.bmod (ticks / hz) (2 ^ w), (rem * 1000000000 % 2 ^ 64 / hz : Nat)⟩, st)

/-- The times that consecutive calls return. -/
def timeRun (hz w : Nat) (st : TimeState) : List (BitVec 32) → List TimeSpec
  | [] => []
  | now :: rest => (timeNow hz w st now).1 :: timeRun hz w (timeNow hz w st now).2 rest

/-- `RT_TICK_MAX / 2 - 1` -/
def maxTicks : Nat := 0xffffffff / 2 - 1

/-- `lely_rtt_timespec_cmp(lhs, rhs) <= 0` -/
def timespecLe (lhs rhs : TimeSpec) : Bool :=
  lhs.sec < rhs.sec ∨ lhs.sec = rhs.sec ∧ lhs.nsec ≤ rhs.nsec

section

variable {m : Type → Type} [Monad m]

/-- The end of `lely_rtt_deadline_ticks`, for the time that is left. -/
def delayTicksWith (u64 : Int → m Int) (hz : Nat) (sec nsec : Int) : m Int :=
  if sec > maxTicks / hz then
    pure maxTicks
  else do
    let ticks ← u64 (sec * hz)
    let scaled ← u64 (nsec * hz)
    let scaled ← u64 (scaled + 999999999)
    let ticks ← u64 (ticks + scaled / 1000000000)
    if ticks = 0 then
      pure 1
    else if ticks > maxTicks then
      pure maxTicks
    else
      pure ticks

/--
`lely_rtt_deadline_ticks`. Every result of 64-bit arithmetic goes through `u64`, which wraps it or
rejects it.
-/
def deadlineTicksWith (u64 : Int → m Int) (hz : Nat) (now next : TimeSpec) : m Int := do
  let sec ← u64 (next.sec - now.sec)
  if next.nsec ≥ now.nsec then do
    let nsec ← u64 (next.nsec - now.nsec)
    delayTicksWith u64 hz sec nsec
  else do
    let sec ← u64 (sec - 1)
    let nsec ← u64 (1000000000 + next.nsec)
    let nsec ← u64 (nsec - now.nsec)
    delayTicksWith u64 hz sec nsec

end

/-- `lely_rtt_deadline_ticks` with the arithmetic of `rt_uint64_t`. -/
def deadlineTicks (hz : Nat) (now next : TimeSpec) : Int :=
  Id.run (deadlineTicksWith (fun x => pure (x % 2 ^ 64)) hz now next)

/-- `lely_rtt_deadline_ticks` that fails at the first result that 64 bits do not hold. -/
def checkedDeadlineTicks (hz : Nat) (now next : TimeSpec) : Except Int Int :=
  deadlineTicksWith (fun x => if 0 ≤ x ∧ x < 2 ^ 64 then .ok x else .error x) hz now next

/-- What `lely_rtt_timer_setnext` does with a deadline. -/
inductive Setnext where
  | disarm
  | due
  | arm (ticks : Int)
  deriving DecidableEq, Repr

/-- `lely_rtt_timer_setnext` at the time `now`. -/
def timerSetnext (hz : Nat) (now next : TimeSpec) : Setnext :=
  if next.sec = 0 ∧ next.nsec = 0 then
    .disarm
  else if timespecLe next now then
    .due
  else
    .arm (deadlineTicks hz now next)

/-! ### The clock -/

/-- The time in nanoseconds. -/
def TimeSpec.ns (t : TimeSpec) : Int := t.sec * 1000000000 + t.nsec

def TimeSpec.Normalized (t : TimeSpec) : Prop := 0 ≤ t.nsec ∧ t.nsec < 1000000000

/-- The time after `n` ticks. -/
def clock (hz n : Nat) : TimeSpec := ⟨(n / hz : Nat), (n % hz * 1000000000 / hz : Nat)⟩

/-- The samples of the tick counter, with the given gaps between them. -/
def samples (tick : Nat) : List Nat → List (BitVec 32)
  | [] => []
  | gap :: gaps => BitVec.ofNat 32 (tick + gap) :: samples (tick + gap) gaps

/-- What a call returns `n` ticks after the first one. -/
def reading (hz w n : Nat) : TimeSpec :=
  ⟨Int.bmod (n % 2 ^ 64 / hz : Nat) (2 ^ w), (n % 2 ^ 64 % hz * 1000000000 % 2 ^ 64 / hz : Nat)⟩

variable {hz w : Nat}

theorem setWidth_sub_ofNat {tick gap : Nat} (h : gap < 2 ^ 32)
    : (BitVec.ofNat 32 (tick + gap) - BitVec.ofNat 32 tick).setWidth 64 = BitVec.ofNat 64 gap := by
  have hsub : BitVec.ofNat 32 (tick + gap) - BitVec.ofNat 32 tick = BitVec.ofNat 32 gap := by
    rw [BitVec.ofNat_add, BitVec.add_comm, BitVec.add_sub_cancel]
  apply BitVec.eq_of_toNat_eq
  rw [hsub, BitVec.toNat_setWidth, BitVec.toNat_ofNat, BitVec.toNat_ofNat, Nat.mod_eq_of_lt h]

theorem timeNow_next {tick n gap : Nat} (h : gap < 2 ^ 32)
    : timeNow hz w ⟨BitVec.ofNat 32 tick, BitVec.ofNat 64 n, true⟩ (BitVec.ofNat 32 (tick + gap))
      = (reading hz w (n + gap), ⟨BitVec.ofNat 32 (tick + gap), BitVec.ofNat 64 (n + gap), true⟩) := by
  have hticks : BitVec.ofNat 64 n + BitVec.ofNat 64 gap = BitVec.ofNat 64 (n + gap) :=
    (BitVec.ofNat_add n gap).symm
  simp only [timeNow, Bool.not_true, Bool.false_eq_true, if_false, setWidth_sub_ofNat h, hticks,
    reading, BitVec.toNat_ofNat]
  rfl

/-- Every call returns the reading for the ticks since the first one. -/
theorem timeRun_samples {tick n : Nat} {gaps : List Nat} (h : ∀ gap ∈ gaps, gap < 2 ^ 32)
    {k : Nat} (hk : k < gaps.length)
    : (timeRun hz w ⟨BitVec.ofNat 32 tick, BitVec.ofNat 64 n, true⟩ (samples tick gaps))[k]?
      = some (reading hz w (n + (gaps.take (k + 1)).sum)) := by
  induction gaps generalizing tick n k with
  | nil => simp at hk
  | cons gap gaps ih =>
    have hgap := h gap List.mem_cons_self
    simp only [samples, timeRun, timeNow_next hgap]
    cases k with
    | zero => simp
    | succ k =>
      have hrest := @ih (tick + gap) (n + gap) (fun g hg => h g (List.mem_cons_of_mem gap hg)) k
        (by simpa using hk)
      rw [List.getElem?_cons_succ, hrest, List.take_succ_cons, List.sum_cons, Nat.add_assoc]

theorem timeRun_first {st : TimeState} (hst : st.initialized = false) {tick : Nat} {gaps : List Nat}
    (h : ∀ gap ∈ gaps, gap < 2 ^ 32) {k : Nat} (hk : k ≤ gaps.length)
    : (timeRun hz w st (BitVec.ofNat 32 tick :: samples tick gaps))[k]?
      = some (reading hz w (gaps.take k).sum) := by
  have hfirst : timeNow hz w st (BitVec.ofNat 32 tick)
      = (reading hz w 0, ⟨BitVec.ofNat 32 tick, BitVec.ofNat 64 0, true⟩) := by
    simp [timeNow, hst, reading]
  simp only [timeRun, hfirst]
  cases k with
  | zero => simp
  | succ k =>
    rw [List.getElem?_cons_succ, timeRun_samples h hk, Nat.zero_add]

theorem bmod_eq {x m : Nat} (h : x < m) : Int.bmod x (m * 2) = x :=
  Int.bmod_eq_of_le (by omega) (by omega)

theorem reading_eq_clock (hlow : 1 ≤ hz) (hhigh : hz ≤ 1000000000) (hw : 0 < w) {n : Nat}
    (hn : n < 2 ^ 64) (hsec : n / hz < 2 ^ (w - 1)) : reading hz w n = clock hz n := by
  have hrem : n % hz < hz := Nat.mod_lt n hlow
  have hscaled : n % hz * 1000000000 < 2 ^ 64 := by omega
  have hpow : 2 ^ w = 2 ^ (w - 1) * 2 := by
    rw [← Nat.pow_succ]
    congr 1
    omega
  rw [reading, clock, Nat.mod_eq_of_lt hn, Nat.mod_eq_of_lt hscaled, hpow, bmod_eq hsec]

theorem clock_normalized (hlow : 1 ≤ hz) (n : Nat) : (clock hz n).Normalized := by
  have hrem : n % hz < hz := Nat.mod_lt n hlow
  have hlt : n % hz * 1000000000 / hz < 1000000000 :=
    (Nat.div_lt_iff_lt_mul hlow).mpr (by rw [Nat.mul_comm 1000000000]; omega)
  exact ⟨Int.natCast_nonneg _, Int.ofNat_lt.mpr hlt⟩

theorem clock_ns (hlow : 1 ≤ hz) (n : Nat) : (clock hz n).ns = (n * 1000000000 / hz : Nat) := by
  have hsplit : n * 1000000000 = n % hz * 1000000000 + (n / hz * 1000000000) * hz := by
    conv_lhs => rw [← Nat.mod_add_div n hz]
    ring
  rw [hsplit, Nat.add_mul_div_right _ _ hlow]
  simp only [TimeSpec.ns, clock]
  omega

theorem clock_mono (hlow : 1 ≤ hz) {n n' : Nat} (h : n ≤ n') : (clock hz n).ns ≤ (clock hz n').ns := by
  have hdiv : n * 1000000000 / hz ≤ n' * 1000000000 / hz := Nat.div_le_div_right (by omega)
  rw [clock_ns hlow, clock_ns hlow]
  omega

/-! ### The delay -/

/-- The ticks that `d` nanoseconds last, rounded up. -/
def neededTicks (hz d : Nat) : Nat := (d * hz + 999999999) / 1000000000

theorem neededTicks_split (sec nsec : Nat)
    : neededTicks hz (sec * 1000000000 + nsec) = sec * hz + (nsec * hz + 999999999) / 1000000000 := by
  have hsplit : (sec * 1000000000 + nsec) * hz + 999999999
      = nsec * hz + 999999999 + sec * hz * 1000000000 := by
    ring
  rw [neededTicks, hsplit, Nat.add_mul_div_right _ _ (by decide), Nat.add_comm]

theorem le_neededTicks (d : Nat) : d * hz ≤ neededTicks hz d * 1000000000 := by
  unfold neededTicks
  omega

theorem neededTicks_le {d ticks : Nat} (h : d * hz ≤ ticks * 1000000000) : neededTicks hz d ≤ ticks := by
  unfold neededTicks
  omega

theorem neededTicks_pos (hlow : 1 ≤ hz) {d : Nat} (h : 0 < d) : 1 ≤ neededTicks hz d := by
  have hpos : 0 < d * hz := Nat.mul_pos h hlow
  unfold neededTicks
  omega

section

variable {m : Type → Type} [Monad m] [LawfulMonad m] {u64 : Int → m Int}

theorem delayTicksWith_eq (hu : ∀ x, 0 ≤ x → x < 2 ^ 64 → u64 x = pure x) (hlow : 1 ≤ hz)
    (hhigh : hz ≤ 1000000000) {sec nsec : Nat} (hnsec : nsec < 1000000000)
    (hpos : 0 < sec * 1000000000 + nsec)
    : delayTicksWith u64 hz sec nsec
      = pure ((min (neededTicks hz (sec * 1000000000 + nsec)) maxTicks : Nat) : Int) := by
  have hneeded := neededTicks_pos hlow hpos
  have hsplit := @neededTicks_split hz sec nsec
  rw [delayTicksWith]
  split
  next hsec =>
    have hsec : maxTicks / hz < sec := by exact_mod_cast hsec
    have hbound : maxTicks < sec * hz := (Nat.div_lt_iff_lt_mul hlow).mp hsec
    rw [Nat.min_eq_right (by omega)]
  next hsec =>
    have hsec : sec ≤ maxTicks / hz := by exact_mod_cast Int.not_lt.mp hsec
    have hbound : sec * hz ≤ maxTicks := (Nat.le_div_iff_mul_le hlow).mp hsec
    have hscaled : nsec * hz < 1000000000 * 1000000000 :=
      Nat.mul_lt_mul_of_lt_of_le hnsec hhigh (by decide)
    have hmax : maxTicks = 2147483646 := rfl
    have hu' (x : Nat) (h : x < 2 ^ 64) : u64 x = pure (x : Int) := hu x (by omega) (by omega)
    rw [show (sec : Int) * hz = (sec * hz : Nat) by push_cast; rfl, hu' _ (by omega), pure_bind,
      show (nsec : Int) * hz = (nsec * hz : Nat) by push_cast; rfl, hu' _ (by omega), pure_bind,
      show ((nsec * hz : Nat) : Int) + 999999999 = (nsec * hz + 999999999 : Nat) by push_cast; rfl,
      hu' _ (by omega), pure_bind,
      show ((sec * hz : Nat) : Int) + ((nsec * hz + 999999999 : Nat) : Int) / 1000000000
        = (neededTicks hz (sec * 1000000000 + nsec) : Nat) by rw [hsplit]; push_cast; rfl,
      hu' _ (by omega), pure_bind]
    rw [if_neg (by omega)]
    split
    next h => rw [Nat.min_eq_right (by omega)]
    next h => rw [Nat.min_eq_left (by omega)]

/-- The delay is the time that is left in ticks, rounded up and clamped. -/
theorem deadlineTicksWith_eq (hu : ∀ x, 0 ≤ x → x < 2 ^ 64 → u64 x = pure x) (hlow : 1 ≤ hz)
    (hhigh : hz ≤ 1000000000) {now next : TimeSpec} (hnow : now.Normalized)
    (hnext : next.Normalized) (hlt : now.ns < next.ns) (hsec : next.sec - now.sec < 2 ^ 63)
    : deadlineTicksWith u64 hz now next
      = pure ((min (neededTicks hz (next.ns - now.ns).toNat) maxTicks : Nat) : Int) := by
  obtain ⟨hnow0, hnow1⟩ := hnow
  obtain ⟨hnext0, hnext1⟩ := hnext
  simp only [TimeSpec.ns] at hlt ⊢
  rw [deadlineTicksWith, hu _ (by omega) (by omega), pure_bind]
  split
  next hge =>
    rw [hu _ (by omega) (by omega), pure_bind]
    obtain ⟨sec, hs⟩ := Int.eq_ofNat_of_zero_le (show 0 ≤ next.sec - now.sec by omega)
    obtain ⟨nsec, hn⟩ := Int.eq_ofNat_of_zero_le (show 0 ≤ next.nsec - now.nsec by omega)
    rw [hs, hn, delayTicksWith_eq hu hlow hhigh (by omega) (by omega)]
    congr 4
    omega
  next hlt' =>
    rw [hu _ (by omega) (by omega), pure_bind, hu _ (by omega) (by omega), pure_bind,
      hu _ (by omega) (by omega), pure_bind]
    obtain ⟨sec, hs⟩ := Int.eq_ofNat_of_zero_le (show 0 ≤ next.sec - now.sec - 1 by omega)
    obtain ⟨nsec, hn⟩ :=
      Int.eq_ofNat_of_zero_le (show 0 ≤ 1000000000 + next.nsec - now.nsec by omega)
    rw [hs, hn, delayTicksWith_eq hu hlow hhigh (by omega) (by omega)]
    congr 4
    omega

end

section

variable (hlow : 1 ≤ hz) (hhigh : hz ≤ 1000000000) {now next : TimeSpec}
include hlow hhigh

theorem deadlineTicks_eq (hnow : now.Normalized) (hnext : next.Normalized) (hlt : now.ns < next.ns)
    (hsec : next.sec - now.sec < 2 ^ 63)
    : deadlineTicks hz now next = (min (neededTicks hz (next.ns - now.ns).toNat) maxTicks : Nat) := by
  have hwrap (x : Int) (h0 : 0 ≤ x) (h1 : x < 2 ^ 64)
      : (pure (x % 2 ^ 64) : Id Int) = pure x := by
    rw [Int.emod_eq_of_lt h0 h1]
  rw [deadlineTicks, deadlineTicksWith_eq hwrap hlow hhigh hnow hnext hlt hsec]
  rfl

/-- No result needs more than 64 bits. -/
theorem checkedDeadlineTicks_eq (hnow : now.Normalized) (hnext : next.Normalized)
    (hlt : now.ns < next.ns) (hsec : next.sec - now.sec < 2 ^ 63)
    : checkedDeadlineTicks hz now next = .ok (deadlineTicks hz now next) := by
  rw [deadlineTicks_eq hlow hhigh hnow hnext hlt hsec]
  exact deadlineTicksWith_eq (fun x h0 h1 => if_pos ⟨h0, h1⟩) hlow hhigh hnow hnext hlt hsec

end

/-- The clock reaches a deadline that is `d` nanoseconds away after the needed ticks. -/
theorem reached_of_needed (hlow : 1 ≤ hz) {n t : Nat}
    : t ≤ (n + neededTicks hz (t - n * 1000000000 / hz)) * 1000000000 / hz := by
  rw [Nat.le_div_iff_mul_le hlow]
  have hneeded := @le_neededTicks hz (t - n * 1000000000 / hz)
  have hfloor : n * 1000000000 / hz * hz ≤ n * 1000000000 := Nat.div_mul_le_self _ _
  have hsub := Nat.sub_mul t (n * 1000000000 / hz) hz
  rw [Nat.add_mul]
  omega

/-- The needed ticks are at most one more than the fewest that reach the deadline. -/
theorem neededTicks_le_succ (hlow : 1 ≤ hz) (hhigh : hz ≤ 1000000000) {n t d : Nat}
    (h : t ≤ (n + d) * 1000000000 / hz) : neededTicks hz (t - n * 1000000000 / hz) ≤ d + 1 := by
  have hreach : t * hz ≤ (n + d) * 1000000000 := (Nat.le_div_iff_mul_le hlow).mp h
  have hfloor : n * 1000000000 < (n * 1000000000 / hz + 1) * hz :=
    (Nat.div_lt_iff_lt_mul hlow).mp (Nat.lt_succ_self _)
  have hsub := Nat.sub_mul t (n * 1000000000 / hz) hz
  apply neededTicks_le
  rw [Nat.add_mul] at hreach hfloor
  omega

/-- A time as a number of nanoseconds. -/
theorem clock_toNat (hlow : 1 ≤ hz) (n : Nat) {next : TimeSpec} (hlt : (clock hz n).ns < next.ns)
    : (next.ns - (clock hz n).ns).toNat = next.ns.toNat - n * 1000000000 / hz
      ∧ (next.ns.toNat : Int) = next.ns := by
  rw [clock_ns hlow] at hlt ⊢
  generalize n * 1000000000 / hz = elapsed at hlt ⊢
  omega

section

variable (hlow : 1 ≤ hz) (hhigh : hz ≤ 1000000000) {n : Nat} {next : TimeSpec}
  (hnext : next.Normalized) (hlt : (clock hz n).ns < next.ns)
  (hsec : next.sec - (clock hz n).sec < 2 ^ 63)
include hlow hhigh hnext hlt hsec

theorem delay_bounds
    : 1 ≤ deadlineTicks hz (clock hz n) next ∧ deadlineTicks hz (clock hz n) next ≤ maxTicks := by
  rw [deadlineTicks_eq hlow hhigh (clock_normalized hlow n) hnext hlt hsec]
  have hpos := @neededTicks_pos hz hlow (next.ns - (clock hz n).ns).toNat (by omega)
  have hmax : maxTicks = 2147483646 := rfl
  omega

/-- No deadline fires early. -/
theorem delay_reaches (hbelow : deadlineTicks hz (clock hz n) next < maxTicks)
    : next.ns ≤ (clock hz (n + (deadlineTicks hz (clock hz n) next).toNat)).ns := by
  rw [deadlineTicks_eq hlow hhigh (clock_normalized hlow n) hnext hlt hsec] at hbelow ⊢
  obtain ⟨hdiff, hnat⟩ := clock_toNat hlow n hlt
  have hreached := @reached_of_needed hz hlow n next.ns.toNat
  rw [Nat.min_eq_left (by omega), Int.toNat_natCast, clock_ns hlow, hdiff, ← hnat]
  exact_mod_cast hreached

theorem delay_le_succ {d : Nat} (hd : next.ns ≤ (clock hz (n + d)).ns)
    : deadlineTicks hz (clock hz n) next ≤ d + 1 := by
  rw [deadlineTicks_eq hlow hhigh (clock_normalized hlow n) hnext hlt hsec]
  obtain ⟨hdiff, hnat⟩ := clock_toNat hlow n hlt
  rw [clock_ns hlow, ← hnat] at hd
  have hle := @neededTicks_le_succ hz hlow hhigh n next.ns.toNat d (Int.ofNat_le.mp hd)
  rw [hdiff]
  exact Int.ofNat_le.mpr (Nat.le_trans (Nat.min_le_left _ _) hle)

end

/-- An owner that wakes no earlier than its timer and arms it again reaches the deadline. -/
theorem rearm_reaches (hlow : 1 ≤ hz) (hhigh : hz ≤ 1000000000) {next : TimeSpec}
    (hnext : next.Normalized) (hsec : next.sec < 2 ^ 63) {wake : Nat → Nat}
    (hwake : ∀ k, (clock hz (wake k)).ns < next.ns →
      wake k + (deadlineTicks hz (clock hz (wake k)) next).toNat ≤ wake (k + 1))
    : ∃ k, next.ns ≤ (clock hz (wake k)).ns := by
  by_contra hnever
  have hbefore (k : Nat) : (clock hz (wake k)).ns < next.ns := by
    have hnot := not_exists.mp hnever k
    omega
  have hgrows (k : Nat) : k ≤ wake k := by
    induction k with
    | zero => exact Nat.zero_le _
    | succ k ih =>
      have hfits : next.sec - (clock hz (wake k)).sec < 2 ^ 63 := by
        have hnonneg : 0 ≤ (clock hz (wake k)).sec := Int.natCast_nonneg _
        omega
      have hpos := (delay_bounds hlow hhigh hnext (hbefore k) hfits).1
      have hnextWake := hwake k (hbefore k)
      omega
  have hlast := hbefore (next.ns.toNat * hz)
  have hmono := clock_mono hlow (hgrows (next.ns.toNat * hz))
  have hclock : (clock hz (next.ns.toNat * hz)).ns = (next.ns.toNat * 1000000000 : Nat) := by
    rw [clock_ns hlow, Nat.mul_right_comm, Nat.mul_div_cancel _ hlow]
  rw [hclock] at hmono
  omega

/--
The clock is exact while the ticks fit 64 bits and the seconds fit `time_t`, no deadline fires early,
and a delay is at most one tick longer than needed.
-/
theorem clock_exact (hlow : 1 ≤ hz) (hhigh : hz ≤ 1000000000) (hw : 0 < w)
    : (∀ st tick gaps, st.initialized = false → (∀ gap ∈ gaps, gap < 2 ^ 32) →
        ∀ k ≤ gaps.length, (gaps.take k).sum < 2 ^ 64 → (gaps.take k).sum / hz < 2 ^ (w - 1) →
        (timeRun hz w st (BitVec.ofNat 32 tick :: samples tick gaps))[k]?
          = some (clock hz (gaps.take k).sum))
      ∧ (∀ n, (clock hz n).Normalized ∧ (clock hz n).ns = (n * 1000000000 / hz : Nat))
      ∧ (∀ n n', n ≤ n' → (clock hz n).ns ≤ (clock hz n').ns)
      ∧ (∀ n next, next.Normalized → (clock hz n).ns < next.ns →
        next.sec - (clock hz n).sec < 2 ^ 63 →
        checkedDeadlineTicks hz (clock hz n) next = .ok (deadlineTicks hz (clock hz n) next)
          ∧ 1 ≤ deadlineTicks hz (clock hz n) next ∧ deadlineTicks hz (clock hz n) next ≤ maxTicks
          ∧ (deadlineTicks hz (clock hz n) next < maxTicks →
            next.ns ≤ (clock hz (n + (deadlineTicks hz (clock hz n) next).toNat)).ns)
          ∧ ∀ d : Nat, next.ns ≤ (clock hz (n + d)).ns →
            deadlineTicks hz (clock hz n) next ≤ d + 1)
      ∧ ∀ next : TimeSpec, next.Normalized → next.sec < 2 ^ 63 → ∀ wake : Nat → Nat,
        (∀ k, (clock hz (wake k)).ns < next.ns →
          wake k + (deadlineTicks hz (clock hz (wake k)) next).toNat ≤ wake (k + 1)) →
        ∃ k, next.ns ≤ (clock hz (wake k)).ns := by
  refine ⟨?_, fun n => ⟨clock_normalized hlow n, clock_ns hlow n⟩, fun _ _ => clock_mono hlow, ?_,
    fun _ hnext hsec _ hwake => rearm_reaches hlow hhigh hnext hsec hwake⟩
  . intro st tick gaps hst hgaps k hk hticks hsec
    rw [timeRun_first hst hgaps hk, reading_eq_clock hlow hhigh hw hticks hsec]
  . intro n next hnext hlt hsec
    obtain ⟨hpos, hmax⟩ := delay_bounds hlow hhigh hnext hlt hsec
    exact ⟨checkedDeadlineTicks_eq hlow hhigh (clock_normalized hlow n) hnext hlt hsec, hpos, hmax,
      delay_reaches hlow hhigh hnext hlt hsec, fun _ => delay_le_succ hlow hhigh hnext hlt hsec⟩

/-- At 1000 ticks a second, 1500 ticks after a sample at the end of the range of the counter. -/
theorem clock_exact_wrap
    : (timeRun 1000 64 ⟨0, 0, false⟩ (BitVec.ofNat 32 0xffffffff :: samples 0xffffffff [1500]))[1]?
      = some ⟨1, 500000000⟩ := by
  rw [(clock_exact (by decide) (by decide) (by decide)).1 ⟨0, 0, false⟩ 0xffffffff [1500] rfl
    (by decide) 1 (by decide) (by decide) (by decide)]
  decide

/--
The counter of 64 bits wraps: 2 ^ 33 samples with gaps of 2 ^ 31 ticks lead back to time zero. And a
delay at the bound may be one tick longer than needed: at 7 ticks a second, the clock reaches 306783378
seconds 2147483645 ticks after the first one.
-/
theorem clock_wraps
    : (timeRun 1000 64 ⟨0, 0, false⟩
        (BitVec.ofNat 32 0 :: samples 0 (List.replicate (2 ^ 33) (2 ^ 31))))[2 ^ 33]? = some ⟨0, 0⟩
      ∧ (clock 1000 (List.replicate (2 ^ 33) (2 ^ 31)).sum).ns ≠ 0
      ∧ deadlineTicks 7 (clock 7 1) ⟨306783378, 0⟩ = maxTicks
      ∧ (⟨306783378, 0⟩ : TimeSpec).ns ≤ (clock 7 (1 + (maxTicks - 1))).ns := by
  have hsum : (List.replicate (2 ^ 33) (2 ^ 31)).sum = 2 ^ 64 := by
    rw [List.sum_replicate_nat]
    decide
  refine ⟨?_, ?_, by decide, by decide⟩
  . have htake : (List.replicate (2 ^ 33) (2 ^ 31)).take (2 ^ 33) = List.replicate (2 ^ 33) (2 ^ 31) :=
      List.take_of_length_le (by rw [List.length_replicate])
    rw [timeRun_first rfl (fun gap hgap => by rw [List.eq_of_mem_replicate hgap]; decide)
      (by rw [List.length_replicate]), htake, hsum]
    decide
  . rw [hsum]
    decide

end LelyRtt.Clock
