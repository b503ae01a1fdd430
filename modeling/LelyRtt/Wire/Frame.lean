import LelyRtt.Basic
import LelyRtt.Dcf.Walk
import LelyRtt.LocalOd.Hooks
import LelyRtt.LocalOd.Read

/-!
This module contains the CAN frames of the SDO protocol: the command bytes of
`upstream/src/co/sdo.h`, the abort codes and the layout of the frames that the client and the
server of an SDO channel exchange.
-/

namespace LelyRtt.Wire

/-- The data of a CAN frame, `msg->len` bytes of `msg->data`. -/
abbrev Msg := List UInt8

/-- `CO_SDO_CS_MASK` -/
def csMask : UInt8 := 0xe0

/-- `CO_SDO_CS_ABORT` -/
def csAbort : UInt8 := 0x80

/-- `CO_SDO_SCS_DN_INI_RES` -/
def scsDnIniRes : UInt8 := 0x60

/-- `CO_SDO_SCS_DN_SEG_RES` -/
def scsDnSegRes : UInt8 := 0x20

/-- `CO_SDO_SCS_UP_INI_RES` -/
def scsUpIniRes : UInt8 := 0x40

/-- `CO_SDO_SCS_UP_SEG_RES` -/
def scsUpSegRes : UInt8 := 0x00

/-- `CO_SDO_CCS_DN_INI_REQ` -/
def ccsDnIniReq : UInt8 := 0x20

/-- `CO_SDO_CCS_DN_SEG_REQ` -/
def ccsDnSegReq : UInt8 := 0x00

/-- `CO_SDO_CCS_UP_INI_REQ` -/
def ccsUpIniReq : UInt8 := 0x40

/-- `CO_SDO_CCS_UP_SEG_REQ` -/
def ccsUpSegReq : UInt8 := 0x60

/-- `CO_SDO_INI_SIZE_MASK` -/
def iniSizeMask : UInt8 := 0x0f

/-- `CO_SDO_INI_SIZE_IND` -/
def iniSizeInd : UInt8 := 0x01

/-- `CO_SDO_INI_SIZE_EXP` -/
def iniSizeExp : UInt8 := 0x02

/-- `CO_SDO_INI_SIZE_EXP_GET` -/
def iniSizeExpGet (cs : UInt8) : Nat := 4 - ((cs &&& iniSizeMask) >>> 2).toNat

/-- `CO_SDO_INI_SIZE_EXP_SET` -/
def iniSizeExpSet (n : Nat) : UInt8 := (UInt8.ofNat ((4 - n) <<< 2) ||| 0x03) &&& iniSizeMask

/-- `CO_SDO_SEG_TOGGLE` -/
def segToggle : UInt8 := 0x10

/-- `CO_SDO_SEG_SIZE_MASK` -/
def segSizeMask : UInt8 := 0x0e

/-- `CO_SDO_SEG_SIZE_GET` -/
def segSizeGet (cs : UInt8) : Nat := 7 - ((cs &&& segSizeMask) >>> 1).toNat

/-- `CO_SDO_SEG_SIZE_SET` -/
def segSizeSet (n : Nat) : UInt8 := UInt8.ofNat ((7 - n) <<< 1) &&& segSizeMask

/-- `CO_SDO_SEG_LAST` -/
def segLast : UInt8 := 0x01

/-- `CO_SDO_AC_TOGGLE` -/
def acToggle : BitVec 32 := 0x05030000#32

/-- `CO_SDO_AC_TIMEOUT` -/
def acTimeout : BitVec 32 := 0x05040000#32

/-- `CO_SDO_AC_NO_CS` -/
def acNoCs : BitVec 32 := 0x05040001#32

/-- `CO_SDO_AC_NO_MEM` -/
def acNoMem : BitVec 32 := 0x05040005#32

/-- `CO_SDO_AC_TYPE_LEN_HI` -/
def acTypeLenHi : BitVec 32 := 0x06070012#32

/-- `CO_SDO_AC_TYPE_LEN_LO` -/
def acTypeLenLo : BitVec 32 := 0x06070013#32

/-- `CO_SDO_AC_ERROR` -/
def acError : BitVec 32 := LocalOd.Hooks.acError

/-- `data` in front of zeros, `n` bytes in all. -/
def pad (n : Nat) (data : List UInt8) : List UInt8 := data.take n ++ List.replicate (n - data.length) 0

/-- `co_csdo_init_ini_req` and `co_ssdo_init_ini_res`, with `data` in the last four bytes. -/
def iniFrame (cs : UInt8) (idx : UInt16) (subidx : UInt8) (data : List UInt8) : Msg :=
  cs :: UInt8.ofNat idx.toNat :: UInt8.ofNat (idx.toNat / 256) :: subidx :: pad 4 data

/-- `co_csdo_init_seg_req` and `co_ssdo_init_seg_res`, with `data` in the last seven bytes. -/
def segFrame (cs : UInt8) (data : List UInt8) : Msg := cs :: pad 7 data

namespace Msg

/-- `msg->data[0]` -/
def cs (msg : Msg) : UInt8 := msg.getD 0 0

/-- `ldle_u16(msg->data + 1)` -/
def idx (msg : Msg) : UInt16 := UInt16.ofNat (Dcf.leNat ((msg.drop 1).take 2))

/-- `msg->data[3]` -/
def subidx (msg : Msg) : UInt8 := msg.getD 3 0

/-- The four bytes from `msg->data + 4` on, with zeros for those that the frame does not have. -/
def data (msg : Msg) : List UInt8 := pad 4 (msg.drop 4)

/-- The abort code of an abort frame, `CO_SDO_AC_ERROR` for a frame that has none. -/
def ac (msg : Msg) : BitVec 32 :=
  let ac := if msg.length < 8 then 0#32 else BitVec.ofNat 32 (Dcf.leNat (msg.drop 4))
  if ac = 0#32 then acError else ac

end Msg

/-- An abort frame. -/
def IsAbort (msg : Msg) : Prop := 1 ≤ msg.length ∧ msg.cs &&& csMask = csAbort

/-! ### Reading back what was put into a frame -/

@[simp] theorem length_pad (n : Nat) (data : List UInt8) : (pad n data).length = n := by
  simp only [pad, List.length_append, List.length_take, List.length_replicate]
  omega

theorem take_pad {n : Nat} {data : List UInt8} (h : data.length ≤ n)
    : (pad n data).take data.length = data := by
  rw [pad, List.take_of_length_le h, List.take_left]

theorem pad_self {n : Nat} {data : List UInt8} (h : data.length = n) : pad n data = data := by
  rw [pad, List.take_of_length_le (Nat.le_of_eq h), h, Nat.sub_self, List.replicate_zero,
    List.append_nil]

section

variable (cs : UInt8) (i : UInt16) (sub : UInt8) (bytes : List UInt8)

@[simp] theorem length_iniFrame : (iniFrame cs i sub bytes).length = 8 := by
  simp [iniFrame]

@[simp] theorem cs_iniFrame : Msg.cs (iniFrame cs i sub bytes) = cs := rfl

@[simp] theorem subidx_iniFrame : Msg.subidx (iniFrame cs i sub bytes) = sub := rfl

@[simp] theorem drop_iniFrame : (iniFrame cs i sub bytes).drop 4 = pad 4 bytes := rfl

@[simp] theorem data_iniFrame : Msg.data (iniFrame cs i sub bytes) = pad 4 bytes := by
  rw [Msg.data, drop_iniFrame, pad_self (length_pad 4 bytes)]

@[simp] theorem idx_iniFrame : Msg.idx (iniFrame cs i sub bytes) = i := by
  have hlt : i.toNat < 256 ^ 2 := i.toNat_lt
  have hbytes : ((iniFrame cs i sub bytes).drop 1).take 2 = Dcf.leBytes 2 i.toNat := by
    simp [iniFrame, Dcf.leBytes]
  rw [Msg.idx, hbytes, Dcf.leNat_leBytes hlt, UInt16.ofNat_toNat]

@[simp] theorem length_segFrame : (segFrame cs bytes).length = 8 := by
  simp [segFrame]

@[simp] theorem cs_segFrame : Msg.cs (segFrame cs bytes) = cs := rfl

theorem drop_segFrame {n : Nat} (h : n = bytes.length) (hle : bytes.length ≤ 7)
    : ((segFrame cs bytes).drop 1).take n = bytes := by
  subst h
  exact take_pad hle

end

/-- The length that `stle_u32` puts into a frame is the length that is read from it. -/
theorem leNat_pad {n : Nat} (h : n < 2 ^ 32) : Dcf.leNat (pad 4 (Dcf.leBytes 4 n)) = n := by
  rw [pad_self (Dcf.length_leBytes 4 n), Dcf.leNat_leBytes h]

/-- No abort code that is read from a frame means success. -/
theorem Msg.ac_ne_zero (msg : Msg) : msg.ac ≠ 0#32 := by
  have hite (ac : BitVec 32) : (if ac = 0#32 then acError else ac) ≠ 0#32 := by
    split
    . decide
    . assumption
  exact hite _

theorem isAbort_iniFrame (i : UInt16) (sub : UInt8) (bytes : List UInt8)
    : IsAbort (iniFrame csAbort i sub bytes) :=
  ⟨by simp, by simp; decide⟩

/-! ### The toggle bit -/

/-- The toggle bit after `k` segments. -/
def toggled (k : Nat) : UInt8 := if k % 2 = 0 then 0 else segToggle

@[simp] theorem toggled_zero : toggled 0 = 0 := rfl

theorem toggled_succ (k : Nat) : toggled (k + 1) = toggled k ^^^ segToggle := by
  unfold toggled
  rcases Nat.mod_two_eq_zero_or_one k with h | h
  . rw [if_neg (by omega), if_pos h]
    rfl
  . rw [if_pos (by omega), if_neg (by omega)]
    rfl

theorem toggled_eq (k : Nat) : toggled k = 0 ∨ toggled k = segToggle := by
  unfold toggled
  split
  . exact .inl rfl
  . exact .inr rfl

theorem toggled_ne_succ (k : Nat) : toggled k ≠ toggled (k + 1) := by
  rw [toggled_succ]
  rcases toggled_eq k with h | h <;> rw [h] <;> decide

/-- The command byte of a segment with `n` bytes that is, or is not, the last one. -/
def segCs (ccs : UInt8) (k n : Nat) (last : Bool) : UInt8 :=
  let cs := ccs ||| toggled k ||| segSizeSet n
  if last then cs ||| segLast else cs

theorem segCs_read {n : Nat} (k : Nat) (last : Bool) (hn : n ≤ 7)
    : segCs 0x00 k n last &&& csMask = 0x00
      ∧ segCs 0x00 k n last &&& segToggle = toggled k
      ∧ segSizeGet (segCs 0x00 k n last) = n
      ∧ (segCs 0x00 k n last &&& segLast ≠ 0 ↔ last = true) := by
  have hall : ∀ n ∈ List.range 8, ∀ toggle ∈ [(0 : UInt8), segToggle], ∀ last ∈ [false, true],
      let cs := 0x00 ||| toggle ||| segSizeSet n
      let cs := if last then cs ||| segLast else cs
      cs &&& csMask = 0x00 ∧ cs &&& segToggle = toggle ∧ segSizeGet cs = n
        ∧ (cs &&& segLast ≠ 0 ↔ last = true) := by
    decide +kernel
  refine hall n (List.mem_range.2 (by omega)) (toggled k) ?_ last ?_
  . rcases toggled_eq k with h | h <;> simp [h]
  . cases last <;> simp

/-- The command byte of a segment request or response without data. -/
theorem toggleCs_read (k : Nat) {ccs : UInt8} (hccs : ccs = 0x20 ∨ ccs = 0x60)
    : (ccs ||| toggled k) &&& csMask = ccs ∧ (ccs ||| toggled k) &&& segToggle = toggled k := by
  rcases toggled_eq k with h | h <;> rcases hccs with rfl | rfl <;> rw [h] <;> decide

/-- The command byte of an expedited request or response with `n` bytes. -/
theorem expCs_read {n : Nat} {ccs : UInt8} (hccs : ccs = 0x20 ∨ ccs = 0x40) (hpos : 0 < n) (hn : n ≤ 4)
    : (ccs ||| iniSizeExpSet n) &&& csMask = ccs
      ∧ (ccs ||| iniSizeExpSet n) &&& iniSizeExp ≠ 0
      ∧ (ccs ||| iniSizeExpSet n) &&& iniSizeInd ≠ 0
      ∧ iniSizeExpGet (ccs ||| iniSizeExpSet n) = n := by
  have hall : ∀ n ∈ [1, 2, 3, 4], ∀ ccs ∈ [(0x20 : UInt8), 0x40],
      (ccs ||| iniSizeExpSet n) &&& csMask = ccs
      ∧ (ccs ||| iniSizeExpSet n) &&& iniSizeExp ≠ 0
      ∧ (ccs ||| iniSizeExpSet n) &&& iniSizeInd ≠ 0
      ∧ iniSizeExpGet (ccs ||| iniSizeExpSet n) = n := by
    decide +kernel
  have hmem : n ∈ [1, 2, 3, 4] := by
    simp only [List.mem_cons, List.not_mem_nil, or_false]
    omega
  exact hall n hmem ccs (by rcases hccs with rfl | rfl <;> simp)

end LelyRtt.Wire
