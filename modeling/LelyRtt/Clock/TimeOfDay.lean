import LelyRtt.Can.Frame
import LelyRtt.Master.Snapshot

/-!
This module contains the frames of the CANopen TIME service, from the time that the application
sends to the time that another one reads.
-/

namespace LelyRtt.Time

open Can.Frame (CanMsg Payload)
open Clock (TimeSpec)

/-- The integer types that the conversions compute in. -/
inductive Width where
  | u16
  | u32
  | i32
  | i64
  deriving DecidableEq, Repr

/-- The values of a type. -/
def Width.Holds : Width → Int → Prop
  | .u16, x => 0 ≤ x ∧ x < 2 ^ 16
  | .u32, x => 0 ≤ x ∧ x < 2 ^ 32
  | .i32, x => -2 ^ 31 ≤ x ∧ x < 2 ^ 31
  | .i64, x => -2 ^ 63 ≤ x ∧ x < 2 ^ 63

instance (t : Width) (x : Int) : Decidable (t.Holds x) := by
  cases t <;> unfold Width.Holds <;> infer_instance

/-- The value that a type keeps of a result. -/
def Width.wrap : Width → Int → Int
  | .u16, x => x % 2 ^ 16
  | .u32, x => x % 2 ^ 32
  | .i32, x => (x + 2 ^ 31) % 2 ^ 32 - 2 ^ 31
  | .i64, x => (x + 2 ^ 63) % 2 ^ 64 - 2 ^ 63

/-- `LELY_RTT_CANOPEN_TIME_EPOCH` -/
def epoch : Int := 441763200

/-- `LELY_RTT_SECONDS_PER_DAY` -/
def secondsPerDay : Int := 86400

/-- `LELY_RTT_CANOPEN_TIME_DAY_COUNT` -/
def dayCount : Int := 65536

/-- `CO_TIME_COBID_PRODUCER` -/
def cobidProducer : BitVec 32 := 0x40000000#32

/-- `CO_TIME_COBID_FRAME` -/
def cobidFrame : BitVec 32 := 0x20000000#32

/-- `CAN_MASK_EID` -/
def maskEid : BitVec 32 := 0x1fffffff#32

/-- `CAN_MASK_BID` -/
def maskBid : BitVec 32 := 0x7ff#32

/-- What the owner finds: the TIME service of the NMT and the value of object `0x1012`. -/
structure Service where
  active : Bool
  cobid : Option (BitVec 32)
  deriving DecidableEq, Repr

/-- The data of a TIME frame. -/
def timeData (ms : BitVec 32) (days : BitVec 16) : Payload := fun i =>
  match i.val with
  | 0 => .ofBitVec (ms.setWidth 8)
  | 1 => .ofBitVec ((ms >>> 8).setWidth 8)
  | 2 => .ofBitVec ((ms >>> 16).setWidth 8)
  | 3 => .ofBitVec ((ms >>> 24).setWidth 8)
  | 4 => .ofBitVec (days.setWidth 8)
  | 5 => .ofBitVec ((days >>> 8).setWidth 8)
  | _ => 0

/-- The frame that `lely_rtt_master_time_send_owner` builds. -/
def timeFrame (cobid : BitVec 32) (ms : BitVec 32) (days : BitVec 16) : CanMsg :=
  if cobid &&& cobidFrame != 0#32 then
    ⟨cobid &&& maskEid, { ide := true }, 6, timeData ms days⟩
  else
    ⟨cobid &&& maskBid, {}, 6, timeData ms days⟩

/-- `ldle_u32` of the bytes from index `i` on. -/
def ldleU32 (data : Payload) (i : Fin 64) : BitVec 32 :=
  (data (i + 3)).toBitVec ++ (data (i + 2)).toBitVec ++ (data (i + 1)).toBitVec ++ (data i).toBitVec

/-- `ldle_u16` of the bytes from index `i` on. -/
def ldleU16 (data : Payload) (i : Fin 64) : BitVec 16 :=
  (data (i + 1)).toBitVec ++ (data i).toBitVec

section

variable {m : Type → Type} [Monad m]

/--
`lely_rtt_master_time_send_owner` up to the call of `can_net_send`. Every result goes through
`cast`, which wraps it to the width of its type or rejects it.
-/
def timeSendOwnerWith (cast : Width → Int → m Int) (service : Service) (seconds nanoseconds : Int)
    : m (Except RtErr CanMsg) := do
  if seconds < epoch ∨ nanoseconds < 0 ∨ nanoseconds ≥ 1000000000 then
    return .error .inval
  let sinceEpoch ← cast .i64 (seconds - epoch)
  let limit ← cast .i64 (dayCount * secondsPerDay)
  if sinceEpoch ≥ limit then
    return .error .inval
  if !service.active then
    return .error .busy
  let some cobid := service.cobid | return .error .error
  if cobid &&& cobidProducer == 0#32 then
    return .error .busy
  let days ← cast .u16 (sinceEpoch.tdiv secondsPerDay)
  let ms ← cast .i64 (sinceEpoch.tmod secondsPerDay * 1000)
  let ms ← cast .i64 (ms + nanoseconds.tdiv 1000000)
  let ms ← cast .u32 ms
  return .ok (timeFrame cobid (.ofInt 32 ms) (.ofInt 16 days))

/-- `co_time_recv` with `co_time_of_day_get`, up to the call of the indication. -/
def coTimeRecvWith (cast : Width → Int → m Int) (msg : CanMsg) : m (Option TimeSpec) := do
  if msg.flags.rtr then
    return none
  if msg.flags.fdf then
    return none
  if msg.len.toNat < 6 then
    return none
  let ms := ldleU32 msg.data 0 &&& 0x0fffffff#32
  let days := ldleU16 msg.data 4
  let sec ← cast .i64 (days.toNat * 24)
  let sec ← cast .i64 (sec * 60)
  let sec ← cast .i64 (sec * 60)
  let sec ← cast .i64 (sec + (ms.toNat / 1000 : Nat))
  let nsec ← cast .i32 ((ms.toNat % 1000 : Nat) * 1000000)
  let sec ← cast .i64 (sec + (14 * 365 + 3) * 24 * 60 * 60)
  return some ⟨sec, nsec⟩

end

/-- `lely_rtt_master_time_send_owner` up to the call of `can_net_send`. -/
def timeSendOwner (service : Service) (seconds nanoseconds : Int) : Except RtErr CanMsg :=
  Id.run (timeSendOwnerWith (fun t x => pure (t.wrap x)) service seconds nanoseconds)

/-- `co_time_recv`, with the time that it passes on. -/
def coTimeRecv (msg : CanMsg) : Option TimeSpec :=
  Id.run (coTimeRecvWith (fun t x => pure (t.wrap x)) msg)

/-- Reject the results that their type does not hold. -/
def checked (t : Width) (x : Int) : Except Int Int := if t.Holds x then .ok x else .error x

/--
`lely_rtt_runtime_time_send` up to the call of `lely_rtt_master_time_submit`, with the request that
it submits.
-/
def runtimeTimeSend (seconds nanoseconds : Int) : Except RtErr (Int × Int) :=
  if seconds < epoch ∨ nanoseconds < 0 ∨ nanoseconds ≥ 1000000000 then
    .error .inval
  else if Width.i64.wrap (seconds - epoch) ≥ dayCount * secondsPerDay then
    .error .inval
  else
    .ok (seconds, nanoseconds)

/-- The instants that fit in the days of a TIME frame. -/
def Admitted (seconds nanoseconds : Int) : Prop :=
  441763200 ≤ seconds ∧ seconds < 441763200 + 65536 * 86400
    ∧ 0 ≤ nanoseconds ∧ nanoseconds < 1000000000

/-- The number of days of an instant. -/
def days (seconds : Int) : Nat := ((seconds - epoch) / secondsPerDay).toNat

/-- The number of milliseconds since midnight of an instant. -/
def millis (seconds nanoseconds : Int) : Nat :=
  ((seconds - epoch) % secondsPerDay * 1000 + nanoseconds / 1000000).toNat

theorem Width.wrap_of_holds {t : Width} {x : Int} (h : t.Holds x) : t.wrap x = x := by
  cases t <;> simp only [Holds, wrap] at * <;> omega

section

variable {seconds nanoseconds : Int} {m : Type → Type} [Monad m] [LawfulMonad m]
  {cast : Width → Int → m Int}

theorem runtimeTimeSend_eq (h : Width.i64.Holds seconds)
    : runtimeTimeSend seconds nanoseconds
      = if 441763200 ≤ seconds ∧ seconds < 441763200 + 65536 * 86400
            ∧ 0 ≤ nanoseconds ∧ nanoseconds < 1000000000 then
          .ok (seconds, nanoseconds)
        else
          .error .inval := by
  have hdiff (hle : epoch ≤ seconds) : Width.i64.wrap (seconds - epoch) = seconds - epoch := by
    apply Width.wrap_of_holds
    simp only [Width.Holds, epoch] at *
    omega
  unfold runtimeTimeSend
  split
  next hlow =>
    rw [if_neg]
    simp only [epoch] at hlow
    omega
  next hlow =>
    rw [hdiff (by omega)]
    by_cases hhigh : seconds - epoch ≥ dayCount * secondsPerDay
    . rw [if_pos hhigh, if_neg]
      simp only [epoch, dayCount, secondsPerDay] at hhigh
      omega
    . rw [if_neg hhigh, if_pos]
      simp only [epoch, dayCount, secondsPerDay] at hlow hhigh
      omega

theorem days_lt (h : Admitted seconds nanoseconds) : days seconds < 65536 := by
  obtain ⟨hlow, hhigh, -⟩ := h
  simp only [days, epoch, secondsPerDay]
  omega

theorem millis_lt (h : Admitted seconds nanoseconds) : millis seconds nanoseconds < 86400000 := by
  obtain ⟨hlow, hhigh, hn, hn'⟩ := h
  simp only [millis, epoch, secondsPerDay]
  omega

/-- Every result of the sender is held by its type, and so is computed as it stands. -/
theorem timeSendOwnerWith_eq (hcast : ∀ t x, t.Holds x → cast t x = pure x) (cobid : BitVec 32)
    (hproducer : cobid &&& cobidProducer ≠ 0#32) (h : Admitted seconds nanoseconds)
    : timeSendOwnerWith cast ⟨true, some cobid⟩ seconds nanoseconds
      = pure (.ok (timeFrame cobid (.ofNat 32 (millis seconds nanoseconds))
          (.ofNat 16 (days seconds)))) := by
  obtain ⟨hlow, hhigh, hn, hn'⟩ := id h
  have hguard : ¬ (seconds < epoch ∨ nanoseconds < 0 ∨ nanoseconds ≥ 1000000000) := by
    simp only [epoch]
    omega
  have hsince : cast .i64 (seconds - epoch) = pure (seconds - epoch) := by
    apply hcast
    simp only [Width.Holds, epoch]
    omega
  have hlimit : cast .i64 (dayCount * secondsPerDay) = pure (dayCount * secondsPerDay) :=
    hcast _ _ (by decide)
  have hle : ¬ seconds - epoch ≥ dayCount * secondsPerDay := by
    simp only [epoch, dayCount, secondsPerDay]
    omega
  have hproducer' : (cobid &&& cobidProducer == 0#32) = false := by
    simpa using hproducer
  have hpos : 0 ≤ seconds - epoch := by
    simp only [epoch]
    omega
  have hdays : (seconds - epoch).tdiv secondsPerDay = days seconds := by
    rw [Int.tdiv_eq_ediv_of_nonneg hpos]
    simp only [days, epoch, secondsPerDay]
    omega
  have hdaysCast : cast .u16 (days seconds) = pure (days seconds : Int) := by
    apply hcast
    have := days_lt h
    simp only [Width.Holds]
    omega
  have htod : cast .i64 ((seconds - epoch).tmod secondsPerDay * 1000)
      = pure ((seconds - epoch).tmod secondsPerDay * 1000) := by
    apply hcast
    rw [Int.tmod_eq_emod_of_nonneg hpos]
    simp only [Width.Holds, epoch, secondsPerDay]
    omega
  have hmillis : (seconds - epoch).tmod secondsPerDay * 1000 + nanoseconds.tdiv 1000000
      = millis seconds nanoseconds := by
    rw [Int.tmod_eq_emod_of_nonneg hpos, Int.tdiv_eq_ediv_of_nonneg hn]
    simp only [millis, epoch, secondsPerDay]
    omega
  have hmillisCast (t : Width) (ht : t = .i64 ∨ t = .u32)
      : cast t (millis seconds nanoseconds) = pure (millis seconds nanoseconds : Int) := by
    apply hcast
    have := millis_lt h
    rcases ht with rfl | rfl <;> simp only [Width.Holds] <;> omega
  unfold timeSendOwnerWith
  simp only [hguard, if_false, pure_bind, hsince, hlimit, hle, Bool.not_true, Bool.false_eq_true,
    hproducer', hdays, hdaysCast, htod, hmillis, hmillisCast, or_true, true_or,
    BitVec.ofInt_natCast]

@[simp]
theorem timeFrame_data (cobid ms : BitVec 32) (days : BitVec 16)
    : (timeFrame cobid ms days).data = timeData ms days := by
  unfold timeFrame
  split <;> rfl

@[simp]
theorem timeFrame_len (cobid ms : BitVec 32) (days : BitVec 16)
    : (timeFrame cobid ms days).len = 6#8 := by
  unfold timeFrame
  split <;> rfl

@[simp]
theorem timeFrame_rtr (cobid ms : BitVec 32) (days : BitVec 16)
    : (timeFrame cobid ms days).flags.rtr = false := by
  unfold timeFrame
  split <;> rfl

@[simp]
theorem timeFrame_fdf (cobid ms : BitVec 32) (days : BitVec 16)
    : (timeFrame cobid ms days).flags.fdf = false := by
  unfold timeFrame
  split <;> rfl

theorem toNat_append_byte {n : Nat} (x : BitVec n) (y : BitVec 8)
    : (x ++ y).toNat = x.toNat * 2 ^ 8 + y.toNat := by
  rw [BitVec.toNat_append, ← Nat.shiftLeft_add_eq_or_of_lt y.isLt, Nat.shiftLeft_eq]

/-- The four bytes of a word make up the word. -/
theorem join_bytes (x : BitVec 32)
    : (x >>> 24).setWidth 8 ++ (x >>> 16).setWidth 8 ++ (x >>> 8).setWidth 8 ++ x.setWidth 8 = x := by
  apply BitVec.eq_of_toNat_eq
  have hx := x.isLt
  simp only [toNat_append_byte, BitVec.toNat_setWidth, BitVec.toNat_ushiftRight,
    Nat.shiftRight_eq_div_pow]
  omega

/-- The two bytes of a half word make up the half word. -/
theorem join_bytes_half (x : BitVec 16) : (x >>> 8).setWidth 8 ++ x.setWidth 8 = x := by
  apply BitVec.eq_of_toNat_eq
  have hx := x.isLt
  simp only [toNat_append_byte, BitVec.toNat_setWidth, BitVec.toNat_ushiftRight,
    Nat.shiftRight_eq_div_pow]
  omega

@[simp]
theorem ldleU32_timeData (ms : BitVec 32) (days : BitVec 16) : ldleU32 (timeData ms days) 0 = ms :=
  join_bytes ms

@[simp]
theorem ldleU16_timeData (ms : BitVec 32) (days : BitVec 16) : ldleU16 (timeData ms days) 4 = days :=
  join_bytes_half days

/-- The receiver masks no bit of the milliseconds of a day. -/
theorem mask_millis {ms : Nat} (h : ms < 2 ^ 28)
    : (BitVec.ofNat 32 ms &&& 0x0fffffff#32).toNat = ms := by
  have hmask : (0x0fffffff#32).toNat = 2 ^ 28 - 1 := rfl
  rw [BitVec.toNat_and, hmask, Nat.and_two_pow_sub_one_eq_mod, BitVec.toNat_ofNat]
  omega

/-- Every result of the receiver is held by its type, and so is computed as it stands. -/
theorem coTimeRecvWith_eq (hcast : ∀ t x, t.Holds x → cast t x = pure x) (cobid : BitVec 32)
    {ms days : Nat} (hms : ms < 2 ^ 28) (hdays : days < 2 ^ 16)
    : coTimeRecvWith cast (timeFrame cobid (.ofNat 32 ms) (.ofNat 16 days))
      = pure (some ⟨days * 86400 + (ms / 1000 : Nat) + 441763200, (ms % 1000 : Nat) * 1000000⟩) := by
  have hnat : (BitVec.ofNat 16 days).toNat = days := Nat.mod_eq_of_lt hdays
  have hi64 (x : Int) (h0 : 0 ≤ x) (h1 : x < 2 ^ 63) : cast .i64 x = pure x :=
    hcast _ _ ⟨by omega, h1⟩
  have hnsec : cast .i32 ((ms % 1000 : Nat) * 1000000) = pure ((ms % 1000 : Nat) * 1000000 : Int) := by
    apply hcast
    simp only [Width.Holds]
    omega
  unfold coTimeRecvWith
  simp only [timeFrame_rtr, timeFrame_fdf, timeFrame_data, Bool.false_eq_true, if_false, pure_bind,
    ldleU32_timeData, ldleU16_timeData, mask_millis hms, hnat, hnsec]
  rw [if_neg (by rw [timeFrame_len]; decide), hi64 _ (by omega) (by omega), pure_bind,
    hi64 _ (by omega) (by omega), pure_bind, hi64 _ (by omega) (by omega), pure_bind,
    hi64 _ (by omega) (by omega), pure_bind, hi64 _ (by omega) (by omega), pure_bind]
  congr 3
  omega

end

theorem frame_bit (cobid : BitVec 32) : (cobid &&& cobidFrame != 0#32) = cobid.getLsbD 29 := by
  have hmask : cobidFrame = BitVec.twoPow 32 29 := rfl
  rw [hmask, BitVec.and_twoPow]
  cases cobid.getLsbD 29 <;> rfl

/-- The identifier of the frame is the one in object `0x1012`, in the format that is given there. -/
theorem timeFrame_id (cobid ms : BitVec 32) (days : BitVec 16)
    : (timeFrame cobid ms days).flags.ide = cobid.getLsbD 29
      ∧ (timeFrame cobid ms days).id.toNat
        = cobid.toNat % if cobid.getLsbD 29 then 2 ^ 29 else 2 ^ 11 := by
  have heid : maskEid.toNat = 2 ^ 29 - 1 := rfl
  have hbid : maskBid.toNat = 2 ^ 11 - 1 := rfl
  unfold timeFrame
  rw [frame_bit]
  cases cobid.getLsbD 29
  . exact ⟨rfl, by simp [hbid, Nat.and_two_pow_sub_one_eq_mod, -Nat.reducePow, -Nat.reduceSub]⟩
  . exact ⟨rfl, by simp [heid, Nat.and_two_pow_sub_one_eq_mod, -Nat.reducePow, -Nat.reduceSub]⟩

section

variable {seconds nanoseconds : Int}

/-- The frame of an instant. -/
def frameOf (cobid : BitVec 32) (seconds nanoseconds : Int) : CanMsg :=
  timeFrame cobid (.ofNat 32 (millis seconds nanoseconds)) (.ofNat 16 (days seconds))

theorem timeSendOwner_eq (cobid : BitVec 32) (hproducer : cobid &&& cobidProducer ≠ 0#32)
    (h : Admitted seconds nanoseconds)
    : timeSendOwner ⟨true, some cobid⟩ seconds nanoseconds
      = .ok (frameOf cobid seconds nanoseconds) :=
  timeSendOwnerWith_eq (m := Id) (fun _ _ hx => Width.wrap_of_holds hx) cobid hproducer h

theorem checked_of_holds (t : Width) (x : Int) (h : t.Holds x) : checked t x = pure x :=
  if_pos h

/-- The instant rounded down to a whole millisecond. -/
theorem time_of_frame (h : Admitted seconds nanoseconds)
    : days seconds * 86400 + (millis seconds nanoseconds / 1000 : Nat) + 441763200 = seconds
      ∧ (millis seconds nanoseconds % 1000 : Nat) * 1000000 = nanoseconds / 1000000 * 1000000 := by
  obtain ⟨hlow, hhigh, hn, hn'⟩ := h
  have hdays : (days seconds : Int) = (seconds - 441763200) / 86400 := by
    simp only [days, epoch, secondsPerDay]
    omega
  have hmillis : (millis seconds nanoseconds : Int)
      = (seconds - 441763200) % 86400 * 1000 + nanoseconds / 1000000 := by
    simp only [millis, epoch, secondsPerDay]
    omega
  generalize days seconds = d at *
  generalize millis seconds nanoseconds = ms at *
  omega

theorem coTimeRecv_eq (cobid : BitVec 32) (h : Admitted seconds nanoseconds)
    : coTimeRecv (frameOf cobid seconds nanoseconds)
        = some ⟨seconds, nanoseconds / 1000000 * 1000000⟩
      ∧ coTimeRecvWith checked (frameOf cobid seconds nanoseconds)
        = .ok (some ⟨seconds, nanoseconds / 1000000 * 1000000⟩) := by
  have hms : millis seconds nanoseconds < 2 ^ 28 := Nat.lt_trans (millis_lt h) (by decide)
  obtain ⟨hsec, hnsec⟩ := time_of_frame h
  have hid := coTimeRecvWith_eq (m := Id) (fun _ _ hx => Width.wrap_of_holds hx) cobid hms
    (days_lt h)
  have hchecked := coTimeRecvWith_eq checked_of_holds cobid hms (days_lt h)
  rw [hsec, hnsec] at hid hchecked
  exact ⟨hid, hchecked⟩

/-- What the application reads after a TIME indication with an admitted instant. -/
theorem getTime_publication (h : Admitted seconds nanoseconds) (mem : Conc.Mem Unit)
    (seq : BitVec 32)
    : Snapshot.getTime (Snapshot.timePublish.publication mem ⟨seconds, nanoseconds⟩).data seq
      = ⟨seconds, nanoseconds, seq⟩ := by
  obtain ⟨hlow, hhigh, hn, hn'⟩ := h
  have hsec : Int.bmod seconds (2 ^ 64) = seconds :=
    Int.bmod_eq_of_le (by omega) (by omega)
  have hnsec : Int.bmod nanoseconds (2 ^ 32) = nanoseconds :=
    Int.bmod_eq_of_le (by omega) (by omega)
  simp only [Snapshot.getTime, Conc.Layout.publication, Snapshot.timePublish, Snapshot.single,
    List.getD_cons_zero, List.getD_cons_succ, Snapshot.join_halves, BitVec.toInt_ofInt, hsec, hnsec]

end

/--
An instant is admitted exactly if its day fits in a TIME frame. It is read back rounded down to a
whole millisecond, no result on the way exceeds its type, and the frames of two instants are equal
exactly if they lie in the same millisecond.
-/
theorem time_round_trip
    : (∀ seconds nanoseconds, Width.i64.Holds seconds → Width.i32.Holds nanoseconds →
        (Admitted seconds nanoseconds →
          runtimeTimeSend seconds nanoseconds = .ok (seconds, nanoseconds))
        ∧ (¬ Admitted seconds nanoseconds →
          runtimeTimeSend seconds nanoseconds = .error .inval))
      ∧ ∀ cobid : BitVec 32, cobid &&& cobidProducer ≠ 0#32 →
        (∀ seconds nanoseconds, Admitted seconds nanoseconds → ∃ msg tp,
          timeSendOwner ⟨true, some cobid⟩ seconds nanoseconds = .ok msg
          ∧ timeSendOwnerWith checked ⟨true, some cobid⟩ seconds nanoseconds = .ok (.ok msg)
          ∧ coTimeRecv msg = some tp ∧ coTimeRecvWith checked msg = .ok (some tp)
          ∧ (∀ mem seq, Snapshot.getTime (Snapshot.timePublish.publication mem tp).data seq
            = ⟨seconds, nanoseconds / 1000000 * 1000000, seq⟩)
          ∧ msg.len = 6 ∧ msg.flags.ide = cobid.getLsbD 29
          ∧ msg.id.toNat = cobid.toNat % if cobid.getLsbD 29 then 2 ^ 29 else 2 ^ 11)
        ∧ ∀ seconds nanoseconds seconds' nanoseconds', Admitted seconds nanoseconds →
          Admitted seconds' nanoseconds' →
          (timeSendOwner ⟨true, some cobid⟩ seconds nanoseconds
              = timeSendOwner ⟨true, some cobid⟩ seconds' nanoseconds'
            ↔ (seconds * 1000000000 + nanoseconds) / 1000000
              = (seconds' * 1000000000 + nanoseconds') / 1000000) := by
  refine ⟨fun seconds nanoseconds h64 _ => ⟨fun h => ?_, fun h => ?_⟩, fun cobid hproducer =>
    ⟨fun seconds nanoseconds h => ?_, fun seconds nanoseconds seconds' nanoseconds' h h' => ?_⟩⟩
  . exact (runtimeTimeSend_eq h64).trans (if_pos h)
  . exact (runtimeTimeSend_eq h64).trans (if_neg h)
  . obtain ⟨hrecv, hchecked⟩ := coTimeRecv_eq cobid h
    obtain ⟨hide, hid⟩ := timeFrame_id cobid (.ofNat 32 (millis seconds nanoseconds))
      (.ofNat 16 (days seconds))
    refine ⟨frameOf cobid seconds nanoseconds, _, timeSendOwner_eq cobid hproducer h,
      timeSendOwnerWith_eq checked_of_holds cobid hproducer h, hrecv, hchecked,
      getTime_publication ?_, timeFrame_len _ _ _, hide, hid⟩
    obtain ⟨hlow, hhigh, hn, hn'⟩ := h
    exact ⟨hlow, hhigh, by omega, by omega⟩
  . rw [timeSendOwner_eq cobid hproducer h, timeSendOwner_eq cobid hproducer h']
    constructor
    . intro heq
      have hframe := Except.ok.inj heq
      have htime := (coTimeRecv_eq cobid h).1
      rw [hframe, (coTimeRecv_eq cobid h').1] at htime
      have hsec : seconds' = seconds := congrArg TimeSpec.sec (Option.some.inj htime)
      have hnsec : nanoseconds' / 1000000 * 1000000 = nanoseconds / 1000000 * 1000000 :=
        congrArg TimeSpec.nsec (Option.some.inj htime)
      omega
    . intro heq
      obtain ⟨-, -, hn, hn'⟩ := h
      obtain ⟨-, -, hm, hm'⟩ := h'
      obtain rfl : seconds = seconds' := by omega
      have hms : nanoseconds / 1000000 = nanoseconds' / 1000000 := by omega
      simp only [frameOf, millis, hms]

/-- The last nanosecond that a TIME frame has a day for. -/
theorem time_round_trip_last
    : ∃ msg tp, timeSendOwner ⟨true, some 0x60000100#32⟩ 6104073599 999999999 = .ok msg
        ∧ coTimeRecv msg = some tp
        ∧ Snapshot.getTime (Snapshot.timePublish.publication (fun _ => 0) tp).data 1
          = ⟨6104073599, 999000000, 1⟩
        ∧ msg.id.toNat = 0x100 := by
  obtain ⟨msg, tp, hsend, -, hrecv, -, hget, -, -, hid⟩ :=
    (time_round_trip.2 0x60000100#32 (by decide)).1 6104073599 999999999
      ⟨by decide, by decide, by decide, by decide⟩
  exact ⟨msg, tp, hsend, hrecv, hget _ 1, hid⟩

end LelyRtt.Time
