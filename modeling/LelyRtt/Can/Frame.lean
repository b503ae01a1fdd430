import LelyRtt.Can.Rx
import Mathlib.Algebra.Ring.Nat

/-!
This module contains both conversions between the frames of Lely and those of RT-Thread in a build
with CAN FD on both sides, with all fields at their widths, and the proof that frames survive them.
-/

namespace LelyRtt.Can.Frame

/-- The 64 bytes of a frame. -/
abbrev Payload : Type := Fin 64 → UInt8

/-- The flags of a `struct can_msg`. -/
@[ext]
structure Flags where
  ide : Bool := false
  rtr : Bool := false
  fdf : Bool := false
  brs : Bool := false
  esi : Bool := false
  deriving DecidableEq, Repr

/-- `struct can_msg` -/
structure CanMsg where
  id : BitVec 32
  flags : Flags
  len : BitVec 8
  data : Payload

/-- `struct rt_can_msg` with its bit fields. -/
structure RtCanMsg where
  id : BitVec 29
  ide : Bool
  rtr : Bool
  len : BitVec 8
  fdFrame : Bool
  brs : Bool
  nonblocking : Bool
  data : Payload

/-- `lely_rtt_can_len_to_dlc` -/
def lenToDlc (len : Nat) : Nat :=
  if len ≤ 8 then len
  else if len ≤ 12 then 9
  else if len ≤ 16 then 10
  else if len ≤ 20 then 11
  else if len ≤ 24 then 12
  else if len ≤ 32 then 13
  else if len ≤ 48 then 14
  else if len ≤ 64 then 15
  else 16

/-- `memcpy` of the first `len` bytes over zeros. -/
def Payload.copy (data : Payload) (len : Nat) : Payload :=
  fun i => if i.val < len then data i else 0

/-- `memset` of the bytes from `start` to `stop` to zero. -/
def Payload.clear (data : Payload) (start stop : Nat) : Payload :=
  fun i => if start ≤ i.val ∧ i.val < stop then 0 else data i

def Payload.zero : Payload := fun _ => 0

/-- The mask of the identifiers of a format. -/
def maskId (ide : Bool) : Nat := if ide then maskEid else maskBid

/-- `lely_rtt_can_from_rt` -/
def fromRt (cfg : CanConfig) (src : RtCanMsg) : Option CanMsg :=
  if src.id.toNat > maskId src.ide then
    none
  else if src.fdFrame then
    if !cfg.canFd ∨ src.rtr then
      none
    else
      let len := if cfg.lenDlc then dlcToLen src.len.toNat else src.len.toNat
      if cfg.lenDlc ∧ (src.len.toNat > 15 ∨ len = 0 ∧ src.len ≠ 0) then
        none
      else if !cfg.lenDlc ∧ src.len.toNat > fdMaxLen then
        none
      else if src.brs ∧ !cfg.canBrs then
        none
      else
        some
          {
            id := src.id.setWidth 32
            flags := { ide := src.ide, fdf := true, brs := src.brs }
            len := BitVec.ofNat 8 len
            data := src.data.copy len
          }
  else if src.len.toNat > maxLen then
    none
  else
    some
      {
        id := src.id.setWidth 32
        flags := { ide := src.ide, rtr := src.rtr }
        len := src.len
        data := if src.rtr then Payload.zero else src.data.copy src.len.toNat
      }

/-- `lely_rtt_can_to_rt` -/
def toRt (cfg : CanConfig) (src : CanMsg) : Option RtCanMsg :=
  if src.id.toNat > maskId src.flags.ide then
    none
  else if src.flags.esi then
    none
  else if src.flags.fdf then
    if !cfg.canFd ∨ src.flags.rtr ∨ src.len.toNat > fdMaxLen then
      none
    else if src.flags.brs ∧ !cfg.canBrs then
      none
    else
      let dlc := lenToDlc src.len.toNat
      if dlc > 15 then
        none
      else
        let copyLen := if cfg.lenDlc then dlcToLen dlc else src.len.toNat
        some
          {
            id := src.id.setWidth 29
            ide := src.flags.ide
            rtr := false
            len := if cfg.lenDlc then BitVec.ofNat 8 dlc else src.len
            fdFrame := true
            brs := src.flags.brs
            nonblocking := true
            data := (src.data.copy src.len.toNat).clear src.len.toNat copyLen
          }
  else if src.len.toNat > maxLen then
    none
  else
    some
      {
        id := src.id.setWidth 29
        ide := src.flags.ide
        rtr := src.flags.rtr
        len := src.len
        fdFrame := false
        brs := false
        nonblocking := true
        data := if src.flags.rtr then Payload.zero else src.data.copy src.len.toNat
      }

/-! ### What the conversions promise -/

/-- The lengths that a CAN FD frame may have. -/
def fdSizes : List Nat := [0, 1, 2, 3, 4, 5, 6, 7, 8, 12, 16, 20, 24, 32, 48, 64]

/-- The least length of a CAN FD frame that holds `len` bytes. -/
def nextSize (len : Nat) : Nat := (fdSizes.find? fun size => len ≤ size).getD 0

/-- The frames of Lely that the bridge can transmit. -/
def CanMsg.Sendable (cfg : CanConfig) (m : CanMsg) : Prop :=
  m.id.toNat ≤ maskId m.flags.ide ∧ m.flags.esi = false
    ∧ (m.flags.fdf = false → m.len.toNat ≤ 8)
    ∧ (m.flags.fdf = true → cfg.canFd = true ∧ m.flags.rtr = false ∧ m.len.toNat ≤ 64
      ∧ (m.flags.brs = true → cfg.canBrs = true))

/-- What arrives of a frame of Lely that goes through both conversions. -/
def CanMsg.carried (cfg : CanConfig) (m : CanMsg) : CanMsg :=
  {
    m with
      len := if m.flags.fdf ∧ cfg.lenDlc then BitVec.ofNat 8 (nextSize m.len.toNat) else m.len
      data := if m.flags.rtr then Payload.zero else m.data.copy m.len.toNat
  }

/-- The payload bytes of a frame of RT-Thread. -/
def RtCanMsg.payloadLen (cfg : CanConfig) (f : RtCanMsg) : Nat :=
  if f.fdFrame ∧ cfg.lenDlc then dlcToLen f.len.toNat else f.len.toNat

/-- The frames are equal as far as they go over the bus. -/
def RtCanMsg.SameFrame (cfg : CanConfig) (f f' : RtCanMsg) : Prop :=
  f'.id = f.id ∧ f'.ide = f.ide ∧ f'.rtr = f.rtr ∧ f'.len = f.len ∧ f'.fdFrame = f.fdFrame
    ∧ (f.fdFrame = true → f'.brs = f.brs)
    ∧ (f.rtr = false → ∀ i : Fin 64, i.val < f.payloadLen cfg → f'.data i = f.data i)

variable {cfg : CanConfig}

theorem lenToDlc_le {len : Nat} (h : len ≤ 64) : lenToDlc len ≤ 15 := by
  have hall : ∀ n : Fin 65, lenToDlc n.val ≤ 15 := by decide
  exact hall ⟨len, by omega⟩

/-- A length is rounded up by the way over the DLC. -/
theorem dlcToLen_lenToDlc {len : Nat} (h : len ≤ 64) : dlcToLen (lenToDlc len) = nextSize len := by
  have hall : ∀ n : Fin 65, dlcToLen (lenToDlc n.val) = nextSize n.val := by decide
  exact hall ⟨len, by omega⟩

theorem lenToDlc_dlcToLen {dlc : Nat} (h : dlc ≤ 15) : lenToDlc (dlcToLen dlc) = dlc := by
  have hall : ∀ n : Fin 16, lenToDlc (dlcToLen n.val) = n.val := by decide
  exact hall ⟨dlc, by omega⟩

theorem dlcToLen_le {dlc : Nat} (h : dlc ≤ 15) : dlcToLen dlc ≤ 64 := by
  have hall : ∀ n : Fin 16, dlcToLen n.val ≤ 64 := by decide
  exact hall ⟨dlc, by omega⟩

theorem dlcToLen_eq_zero {dlc : Nat} (h : dlc ≤ 15) (hzero : dlcToLen dlc = 0) : dlc = 0 := by
  have hall : ∀ n : Fin 16, dlcToLen n.val = 0 → n.val = 0 := by decide
  exact hall ⟨dlc, by omega⟩ hzero

theorem le_nextSize {len : Nat} (h : len ≤ 64) : len ≤ nextSize len ∧ nextSize len ≤ 64 := by
  have hall : ∀ n : Fin 65, n.val ≤ nextSize n.val ∧ nextSize n.val ≤ 64 := by decide
  exact hall ⟨len, by omega⟩

theorem maskId_lt (ide : Bool) : maskId ide < 2 ^ 29 := by
  cases ide <;> decide

/-- Identifiers that fit their format survive the 29-bit field. -/
theorem setWidth_id {id : BitVec 32} {ide : Bool} (h : id.toNat ≤ maskId ide)
    : (id.setWidth 29).toNat = id.toNat ∧ (id.setWidth 29).setWidth 32 = id := by
  have hlt := maskId_lt ide
  have hnat : (id.setWidth 29).toNat = id.toNat := by
    rw [BitVec.toNat_setWidth, Nat.mod_eq_of_lt (by omega)]
  refine ⟨hnat, BitVec.eq_of_toNat_eq ?_⟩
  rw [BitVec.toNat_setWidth, hnat, Nat.mod_eq_of_lt (by omega)]

theorem setWidth_id29 (id : BitVec 29)
    : (id.setWidth 32).toNat = id.toNat ∧ (id.setWidth 32).setWidth 29 = id := by
  have hnat : (id.setWidth 32).toNat = id.toNat := by
    rw [BitVec.toNat_setWidth, Nat.mod_eq_of_lt (by omega)]
  refine ⟨hnat, BitVec.eq_of_toNat_eq ?_⟩
  rw [BitVec.toNat_setWidth, hnat, Nat.mod_eq_of_lt (by omega)]

theorem Payload.copy_copy {data : Payload} {len len' : Nat} (h : len ≤ len')
    : (data.copy len).copy len' = data.copy len := by
  funext i
  simp only [copy]
  split
  next => rfl
  next hout => rw [if_neg (by omega)]

/-- The padding finds zeros. -/
theorem Payload.clear_copy {data : Payload} {len stop : Nat}
    : (data.copy len).clear len stop = data.copy len := by
  funext i
  simp only [clear, copy]
  split
  next hin => rw [if_neg (by omega)]
  next => rfl

/-- The bridge accepts exactly the frames that it can transmit. -/
theorem toRt_isSome_iff (m : CanMsg) : (toRt cfg m).isSome ↔ m.Sendable cfg := by
  unfold toRt CanMsg.Sendable
  split
  next hid => simp [Nat.not_le.mpr hid]
  next hid =>
    split
    next hesi => simp [hesi]
    next hesi =>
      split
      next hfdf =>
        split
        next hreject =>
          simp only [fdMaxLen] at hreject
          simp only [Option.isSome_none, Bool.false_eq_true, false_iff, hfdf]
          rintro ⟨-, -, -, hfd⟩
          obtain ⟨hcan, hrtr, hlen, -⟩ := hfd trivial
          simp [hcan, hrtr] at hreject
          omega
        next hreject =>
          simp only [fdMaxLen, not_or, Bool.not_eq_true, Bool.not_eq_false', Nat.not_lt] at hreject
          obtain ⟨hcan, hrtr, hlen⟩ := hreject
          have hdlc := lenToDlc_le hlen
          split
          next hbrs =>
            simp only [Bool.not_eq_true'] at hbrs
            simp [hfdf, hbrs]
          next hbrs =>
            rw [if_neg (by omega)]
            simp_all
      next hfdf =>
        split
        next hlen =>
          simp only [maxLen] at hlen
          simp [hfdf, Nat.not_le.mpr hlen]
        next hlen =>
          simp only [maxLen, Nat.not_lt] at hlen
          simp_all

theorem fromRt_classic {f : RtCanMsg} (hid : f.id.toNat ≤ maskId f.ide) (hfd : f.fdFrame = false)
    (hlen : f.len.toNat ≤ 8)
    : fromRt cfg f = some ⟨f.id.setWidth 32, { ide := f.ide, rtr := f.rtr }, f.len,
        if f.rtr then Payload.zero else f.data.copy f.len.toNat⟩ := by
  simp only [fromRt, hfd]
  rw [if_neg (Nat.not_lt.mpr hid), if_neg (by decide),
    if_neg (show ¬f.len.toNat > maxLen from Nat.not_lt.mpr hlen)]

theorem fromRt_fd {f : RtCanMsg} (hid : f.id.toNat ≤ maskId f.ide) (hfd : f.fdFrame = true)
    (hcan : cfg.canFd = true) (hrtr : f.rtr = false) (hbrs : f.brs = true → cfg.canBrs = true)
    (hlen : f.len.toNat ≤ if cfg.lenDlc then 15 else 64)
    : fromRt cfg f = some ⟨f.id.setWidth 32, { ide := f.ide, fdf := true, brs := f.brs },
        BitVec.ofNat 8 (f.payloadLen cfg), f.data.copy (f.payloadLen cfg)⟩ := by
  simp only [fromRt, hfd, hcan, hrtr, RtCanMsg.payloadLen, fdMaxLen]
  rw [if_neg (by omega), if_pos trivial, if_neg (by simp)]
  cases hmode : cfg.lenDlc with
  | true =>
    rw [hmode] at hlen
    simp only [if_true] at hlen
    have hzero : dlcToLen f.len.toNat = 0 → f.len = 0 := fun heq =>
      BitVec.eq_of_toNat_eq (dlcToLen_eq_zero hlen heq)
    simp
    exact ⟨⟨hlen, hzero⟩, hbrs⟩
  | false =>
    rw [hmode] at hlen
    simp only [Bool.false_eq_true, if_false] at hlen
    simp [Nat.not_lt.mpr hlen]
    exact hbrs

theorem toRt_classic {m : CanMsg} (h : m.Sendable cfg) (hfd : m.flags.fdf = false)
    : toRt cfg m = some ⟨m.id.setWidth 29, m.flags.ide, m.flags.rtr, m.len, false, false, true,
        if m.flags.rtr then Payload.zero else m.data.copy m.len.toNat⟩ := by
  obtain ⟨hid, hesi, hlen, -⟩ := h
  simp only [toRt, hfd, hesi]
  rw [if_neg (Nat.not_lt.mpr hid), if_neg (by decide), if_neg (by decide),
    if_neg (show ¬m.len.toNat > maxLen from Nat.not_lt.mpr (hlen hfd))]

theorem toRt_fd {m : CanMsg} (h : m.Sendable cfg) (hfd : m.flags.fdf = true)
    : toRt cfg m = some ⟨m.id.setWidth 29, m.flags.ide, false,
        if cfg.lenDlc then BitVec.ofNat 8 (lenToDlc m.len.toNat) else m.len, true, m.flags.brs, true,
        m.data.copy m.len.toNat⟩ := by
  obtain ⟨hid, hesi, -, hrest⟩ := h
  obtain ⟨hcan, hrtr, hlen, hbrs⟩ := hrest hfd
  have hdlc := lenToDlc_le hlen
  simp only [toRt, hfd, hesi, hcan, hrtr, Payload.clear_copy]
  rw [if_neg (Nat.not_lt.mpr hid), if_neg (by decide), if_pos trivial,
    if_neg (show ¬((!true) = true ∨ false = true ∨ m.len.toNat > fdMaxLen) by
      simpa [fdMaxLen] using hlen),
    if_neg (show ¬(m.flags.brs = true ∧ (!cfg.canBrs) = true) by simpa using hbrs),
    if_neg (Nat.not_lt.mpr hdlc)]

/-- A frame of Lely that is transmitted and received again. -/
theorem fromRt_of_toRt {m : CanMsg} (hbrs : m.flags.brs = true → m.flags.fdf = true) {f : RtCanMsg}
    (h : toRt cfg m = some f) : fromRt cfg f = some (m.carried cfg) := by
  have hsend : m.Sendable cfg := (toRt_isSome_iff m).mp (by rw [h]; rfl)
  have ⟨hid, hesi, hclassic, hrest⟩ := hsend
  obtain ⟨hnat, hback⟩ := setWidth_id hid
  cases hfd : m.flags.fdf with
  | false =>
    have hnot : m.flags.brs = false := by simpa [hfd] using hbrs
    rw [toRt_classic hsend hfd] at h
    cases h
    rw [fromRt_classic (by simpa only [hnat] using hid) rfl (hclassic hfd)]
    have hflags : ({ ide := m.flags.ide, rtr := m.flags.rtr } : Flags) = m.flags :=
      Flags.ext rfl rfl hfd.symm hnot.symm hesi.symm
    simp only [hflags, hback]
    cases hrtr : m.flags.rtr <;> simp [CanMsg.carried, hfd, hrtr, Payload.copy_copy]
  | true =>
    obtain ⟨hcan, hrtr, hlen, hbrsOk⟩ := hrest hfd
    rw [toRt_fd hsend hfd] at h
    cases h
    have hdlc := lenToDlc_le hlen
    have hnext := le_nextSize hlen
    have hpayload : (if cfg.lenDlc then BitVec.ofNat 8 (lenToDlc m.len.toNat) else m.len).toNat
        = if cfg.lenDlc then lenToDlc m.len.toNat else m.len.toNat := by
      split
      next => rw [BitVec.toNat_ofNat, Nat.mod_eq_of_lt (by omega)]
      next => rfl
    have hbound : (if cfg.lenDlc then lenToDlc m.len.toNat else m.len.toNat)
        ≤ if cfg.lenDlc then 15 else 64 := by
      split <;> omega
    rw [fromRt_fd (by simpa only [hnat] using hid) rfl hcan rfl hbrsOk (hpayload ▸ hbound)]
    have hlength : RtCanMsg.payloadLen cfg ⟨m.id.setWidth 29, m.flags.ide, false,
        if cfg.lenDlc then BitVec.ofNat 8 (lenToDlc m.len.toNat) else m.len, true, m.flags.brs, true,
        m.data.copy m.len.toNat⟩ = if cfg.lenDlc then nextSize m.len.toNat else m.len.toNat := by
      simp only [RtCanMsg.payloadLen, true_and]
      rw [hpayload]
      split
      next => rw [dlcToLen_lenToDlc hlen]
      next => rfl
    have hflags : ({ ide := m.flags.ide, fdf := true, brs := m.flags.brs } : Flags) = m.flags :=
      Flags.ext rfl hrtr.symm hfd.symm rfl hesi.symm
    simp only [hlength, hflags, hback]
    cases hmode : cfg.lenDlc with
    | true => simp [CanMsg.carried, hfd, hrtr, hmode, Payload.copy_copy hnext.1]
    | false => simp [CanMsg.carried, hrtr, hmode, Payload.copy_copy]

/-- What it takes for a frame of RT-Thread to be accepted. -/
theorem accepted_of_fromRt {f : RtCanMsg} (h : (fromRt cfg f).isSome)
    : f.id.toNat ≤ maskId f.ide ∧ (f.fdFrame = false → f.len.toNat ≤ 8)
      ∧ (f.fdFrame = true → cfg.canFd = true ∧ f.rtr = false ∧ (f.brs = true → cfg.canBrs = true)
        ∧ f.len.toNat ≤ if cfg.lenDlc then 15 else 64) := by
  unfold fromRt at h
  split at h
  next => cases h
  next hid =>
    refine ⟨Nat.not_lt.mp hid, ?_, ?_⟩
    . intro hfd
      rw [if_neg (by simp [hfd])] at h
      split at h
      next => cases h
      next hlen => exact Nat.not_lt.mp hlen
    . intro hfd
      rw [if_pos hfd] at h
      split at h
      next => cases h
      next hreject =>
        simp only [Bool.not_eq_true', not_or, Bool.not_eq_false, Bool.not_eq_true] at hreject
        refine ⟨hreject.1, hreject.2, ?_⟩
        cases hmode : cfg.lenDlc with
        | true =>
          simp only [hmode, true_and, if_true, Bool.not_true, Bool.false_eq_true, false_and, if_false]
            at h
          split at h
          next => cases h
          next hlen =>
            split at h
            next => cases h
            next hbrs => exact ⟨by simpa using hbrs, Nat.not_lt.mp (not_or.mp hlen).1⟩
        | false =>
          simp only [hmode, false_and, if_false, Bool.not_false, true_and, Bool.false_eq_true] at h
          split at h
          next => cases h
          next hlen =>
            split at h
            next => cases h
            next hbrs => exact ⟨by simpa using hbrs, Nat.not_lt.mp hlen⟩

/-- A frame of RT-Thread that is received and transmitted again. -/
theorem toRt_of_fromRt {f : RtCanMsg} {m : CanMsg} (h : fromRt cfg f = some m)
    : ∃ f', toRt cfg m = some f' ∧ f.SameFrame cfg f' := by
  obtain ⟨hid, hclassic, hrest⟩ := accepted_of_fromRt (show (fromRt cfg f).isSome by rw [h]; rfl)
  obtain ⟨hnat, hback⟩ := setWidth_id29 f.id
  cases hfd : f.fdFrame with
  | false =>
    have hlen := hclassic hfd
    rw [fromRt_classic hid hfd hlen] at h
    cases h
    refine ⟨_, toRt_classic ?_ rfl, ?_⟩
    . exact ⟨by simpa only [hnat] using hid, rfl, fun _ => hlen, fun hfdf => nomatch hfdf⟩
    . refine ⟨hback, rfl, rfl, rfl, hfd.symm, fun htrue => by simp [hfd] at htrue, ?_⟩
      intro hrtr i hi
      have hin : i.val < f.len.toNat := by simpa [RtCanMsg.payloadLen, hfd] using hi
      simp only [hrtr, Bool.false_eq_true, if_false, Payload.copy_copy (Nat.le_refl _), Payload.copy]
      rw [if_pos hin]
  | true =>
    obtain ⟨hcan, hrtr, hbrs, hlen⟩ := hrest hfd
    rw [fromRt_fd hid hfd hcan hrtr hbrs hlen] at h
    cases h
    have hpayload : f.payloadLen cfg ≤ 64 := by
      simp only [RtCanMsg.payloadLen, hfd, true_and]
      split at hlen
      next hmode => simpa [hmode] using dlcToLen_le hlen
      next hmode => simpa [hmode] using hlen
    have hnatLen : (BitVec.ofNat 8 (f.payloadLen cfg)).toNat = f.payloadLen cfg := by
      rw [BitVec.toNat_ofNat, Nat.mod_eq_of_lt (by omega)]
    have hlenBack : (if cfg.lenDlc then BitVec.ofNat 8 (lenToDlc (f.payloadLen cfg))
        else BitVec.ofNat 8 (f.payloadLen cfg)) = f.len := by
      split
      next hmode =>
        rw [hmode] at hlen
        simp only [RtCanMsg.payloadLen, hfd, hmode, true_and, if_true]
        rw [lenToDlc_dlcToLen (by simpa using hlen), BitVec.ofNat_toNat, BitVec.setWidth_eq]
      next hmode =>
        simp only [RtCanMsg.payloadLen, hfd, hmode, true_and]
        simp
    refine ⟨_, toRt_fd ?_ rfl, ?_⟩
    . refine ⟨by simpa only [hnat] using hid, rfl, ?_, ?_⟩
      . intro hfdf
        cases hfdf
      . exact fun _ => ⟨hcan, rfl, by simpa only [hnatLen] using hpayload, hbrs⟩
    . refine ⟨hback, rfl, hrtr.symm, by simpa only [hnatLen] using hlenBack, hfd.symm, fun _ => rfl, ?_⟩
      intro _ i hi
      simp only [hnatLen, Payload.copy]
      rw [if_pos hi, if_pos hi]

/--
Both conversions of `can.c` with CAN FD: what is sent is what the bridge can transmit, a frame of Lely
comes back as it is carried, and a frame of RT-Thread that is accepted comes back as the same frame.
-/
theorem frames_survive (cfg : CanConfig)
    : (∀ m : CanMsg, (m.flags.brs = true → m.flags.fdf = true) →
        ((toRt cfg m).isSome ↔ m.Sendable cfg)
        ∧ ∀ f, toRt cfg m = some f → fromRt cfg f = some (m.carried cfg))
      ∧ ∀ (f : RtCanMsg) (m : CanMsg), fromRt cfg f = some m →
        ∃ f', toRt cfg m = some f' ∧ f.SameFrame cfg f' :=
  ⟨fun m hbrs => ⟨toRt_isSome_iff m, fun _ h => fromRt_of_toRt hbrs h⟩,
    fun _ _ h => toRt_of_fromRt h⟩

/-- A CAN FD frame of nine bytes comes back with twelve where the driver counts in DLCs. -/
theorem frames_survive_padded
    : (toRt ⟨true, true, true, false, true, 8, true, true⟩
        ⟨0x123, { fdf := true }, 9, fun _ => 0x55⟩).isSome
      ∧ (CanMsg.carried ⟨true, true, true, false, true, 8, true, true⟩
        ⟨0x123, { fdf := true }, 9, fun _ => 0x55⟩).len = 12 :=
  ⟨(((frames_survive ⟨true, true, true, false, true, 8, true, true⟩).1
      ⟨0x123, { fdf := true }, 9, fun _ => 0x55⟩ (fun hbrs => nomatch hbrs)).1).mpr
      (by simp [CanMsg.Sendable, maskId, maskBid]), by decide⟩

end LelyRtt.Can.Frame
