import Mathlib.Data.List.Basic

/-!
This module contains the constants and enumerations that the bridge takes from RT-Thread, Lely and
its own configuration.
-/

namespace LelyRtt

/-- The results of RT-Thread and bridge calls, `RT_EOK` and the negated `RT_E...` codes. -/
inductive RtErr where
  | ok
  | error
  | timeout
  | full
  | busy
  | nomem
  | nosys
  | inval
  deriving DecidableEq, Repr, Inhabited

/-- `CO_NUM_NODES` -/
def numNodes : Nat := 127

/-- `CO_SDO_AC_NO_SDO` -/
def acNoSdo : BitVec 32 := 0x060a0023#32

/-- `LELY_RTT_SDO_CHANNEL_PREDEFINED` -/
def channelPredefined : Nat := 0

/-- `CO_NMT_ST_BOOTUP` -/
def stBootup : Nat := 0x00

/-- `CO_NMT_ST_STOP` -/
def stStop : Nat := 0x04

/-- `CO_NMT_ST_START` -/
def stStart : Nat := 0x05

/-- `CO_NMT_ST_PREOP` -/
def stPreop : Nat := 0x7f

/-- `st & ~CO_NMT_ST_TOGGLE` of an 8-bit state. -/
def untoggle (st : Nat) : Nat := st % 0x80

inductive NmtCommand where
  | start
  | stop
  | preop
  | resetNode
  | resetComm
  deriving DecidableEq, Repr, Inhabited

/-- The package options that the owner loop depends on. Kconfig keeps both depths positive. -/
structure BuildConfig where
  commandQueueDepth : Nat
  sdoQueueDepth : Nat
  commandQueueDepth_pos : 1 ≤ commandQueueDepth
  sdoQueueDepth_pos : 1 ≤ sdoQueueDepth

/-- The nodes that an owner loop `for (id = first; id <= last; id++)` runs over. -/
def targets (node : Nat) : List Nat :=
  if node = 0 then List.range' 1 numNodes else [node]

end LelyRtt
