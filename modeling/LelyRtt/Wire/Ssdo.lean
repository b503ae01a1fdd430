import LelyRtt.Wire.Frame
import LelyRtt.Wire.Membuf

/-!
This module contains the expedited and segmented transfers of the SDO server of Lely
(`upstream/src/co/ssdo.c`, built with `LELY_NO_CO_SSDO_BLK`) and the SDO requests that it passes to
the object dictionary (`upstream/src/co/sdo.c`).
-/

namespace LelyRtt.Wire

/-- `struct co_sdo_req`; `buf` are the `nbyte` bytes that the pointer of that name points to. -/
structure SdoReq where
  size : Nat
  buf : List UInt8
  offset : Nat
  membuf : Membuf

/--
The results 1, 0 and -1 of `co_sdo_req_dn_buf`, and the abort code that -1 becomes; or it never returns
from `membuf_reserve`.
-/
inductive DnBuf where
  | all (bytes : List UInt8)
  | more
  | error (ac : BitVec 32)
  | never

namespace SdoReq

/-- `CO_SDO_REQ_INIT` -/
def init : SdoReq := ⟨0, [], 0, .init⟩

/-- `co_sdo_req_clear` -/
def clear (req : SdoReq) : SdoReq := ⟨0, [], 0, req.membuf.clear⟩

def nbyte (req : SdoReq) : Nat := req.buf.length

/-- `co_sdo_req_first` -/
def first (req : SdoReq) : Bool := req.offset = 0

/-- `co_sdo_req_last` -/
def last (req : SdoReq) : Bool := req.size ≤ req.offset + req.nbyte

/-- The end of `co_sdo_req_dn_buf`, from the check of `nbyte` on, with the buffer made ready. -/
def dnCopy (req : SdoReq) (buf : Membuf) : SdoReq × DnBuf :=
  if buf.capacity < req.nbyte then (req, .error acError)
  else
    let req := { req with membuf := buf.write req.buf }
    if req.last then (req, .all (req.membuf.data.take req.size)) else (req, .more)

/-- `co_sdo_req_dn_buf` -/
def dnBuf (req : SdoReq) (mem : Mem) : SdoReq × DnBuf :=
  if req.first && req.last then (req, .all (req.buf.take req.size))
  else if req.first then
    match req.membuf.clear.reserve req.size mem with
    | .noMem => (req, .error acNoMem)
    | .never => (req, .never)
    | .room buf => req.dnCopy buf
  else if req.membuf.data.length < req.offset then (req, .error acError)
  else req.dnCopy (req.membuf.seekBack (req.membuf.data.length - req.offset))

/--
`co_sdo_req_up_val` of a value that is written as `bytes`, with the abort code that it sets, or 0; with
`none` it never returns from `membuf_reserve`.
-/
def up (req : SdoReq) (bytes : List UInt8) (mem : Mem) : SdoReq × Option (BitVec 32) :=
  let req := { req with membuf := req.membuf.clear }
  match req.membuf.reserve bytes.length mem with
  | .noMem => (req, some acNoMem)
  | .never => (req, none)
  | .room buf =>
    let buf := buf.write bytes
    (⟨buf.data.length, buf.data, 0, buf⟩, some 0)

end SdoReq

/--
What the object dictionary answers: the abort code of the checks before a write or a read (no such
object or sub-object, no access), that of a complete value that is written, and for a read an abort
code or a value, which `size_t` counts.
-/
structure Dev where
  dnCheck : UInt16 → UInt8 → BitVec 32
  upCheck : UInt16 → UInt8 → BitVec 32
  write : UInt16 → UInt8 → List UInt8 → BitVec 32
  read : UInt16 → UInt8 → BitVec 32 × List UInt8
  mem : Mem
  fits : ∀ idx subidx, (read idx subidx).2.length < 2 ^ mem.width

/--
The `co_ssdo_..._state`s, without those of block transfers. In the last one the server is in the loop
of `membuf_reserve` and never leaves it: none of its functions is called any more.
-/
inductive SState where
  | stopped
  | wait
  | dnSeg
  | upSeg
  | reserving
  deriving DecidableEq, Repr

/-- `struct __co_ssdo`; `timer` says whether the CAN timer runs. -/
structure Ssdo where
  state : SState
  timeout : Nat
  timer : Bool
  idx : UInt16
  subidx : UInt8
  toggle : UInt8
  req : SdoReq
  buf : Membuf
  nbyte : Nat

/-- What a server does besides changing its own state. -/
inductive SOut where
  | send (msg : Msg)
  | wrote (idx : UInt16) (subidx : UInt8) (bytes : List UInt8)
  | read (idx : UInt16) (subidx : UInt8) (bytes : List UInt8)

namespace Ssdo

/-- `__co_ssdo_init` before `co_ssdo_start` -/
def init : Ssdo where
  state := .stopped
  timeout := 0
  timer := false
  idx := 0
  subidx := 0
  toggle := 0
  req := .init
  buf := .init
  nbyte := 0

/-- `co_ssdo_send_abort` -/
def sendAbort (sdo : Ssdo) (ac : BitVec 32) : SOut :=
  .send (iniFrame csAbort sdo.idx sdo.subidx (Dcf.leBytes 4 ac.toNat))

/-- `co_ssdo_abort_ind`, which returns the waiting state. -/
def abortInd (sdo : Ssdo) : Ssdo :=
  { sdo with
    state := .wait, timer := sdo.timer && sdo.timeout = 0, idx := 0, subidx := 0, toggle := 0,
    req := sdo.req.clear, buf := sdo.buf.clear, nbyte := 0 }

/-- `co_ssdo_abort_res` -/
def abortRes (sdo : Ssdo) (ac : BitVec 32) : Ssdo × List SOut := (sdo.abortInd, [sdo.sendAbort ac])

/-- `if (sdo->timeout) can_timer_timeout(...)` -/
def armTimer (sdo : Ssdo) : Ssdo := { sdo with timer := sdo.timer || sdo.timeout ≠ 0 }

/--
`co_ssdo_dn_ind` over the default download indication of a sub-object, with its abort code; with `none`
it never returns.
-/
def dnInd (sdo : Ssdo) (dev : Dev) : Ssdo × Option (BitVec 32) × List SOut :=
  if dev.dnCheck sdo.idx sdo.subidx ≠ 0 then (sdo, some (dev.dnCheck sdo.idx sdo.subidx), [])
  else
    let filled := sdo.req.dnBuf dev.mem
    let sdo := { sdo with req := filled.1 }
    match filled.2 with
    | .never => (sdo, none, [])
    | .error ac => (sdo, some ac, [])
    | .more => (sdo, some 0, [])
    | .all bytes =>
      let ac := dev.write sdo.idx sdo.subidx bytes
      (sdo, some ac, if ac = 0 then [.wrote sdo.idx sdo.subidx bytes] else [])

/-- `co_ssdo_up_ind` over the default upload indication of a sub-object. -/
def upInd (sdo : Ssdo) (dev : Dev) : Ssdo × Option (BitVec 32) × List SOut :=
  if dev.upCheck sdo.idx sdo.subidx ≠ 0 then (sdo, some (dev.upCheck sdo.idx sdo.subidx), [])
  else
    let sdo := { sdo with nbyte := 0 }
    let value := dev.read sdo.idx sdo.subidx
    if value.1 ≠ 0 then (sdo, some value.1, [])
    else
      let filled := sdo.req.up value.2 dev.mem
      ({ sdo with req := filled.1 }, filled.2,
        if filled.2 = some 0 then [.read sdo.idx sdo.subidx value.2] else [])

/-- The copy of one round of the loop of `co_ssdo_up_buf`, and the bytes that are left to copy. -/
def upCopy (sdo : Ssdo) (nbyte : Nat) : Ssdo × Nat :=
  let n := min nbyte (sdo.req.nbyte - sdo.nbyte)
  ({ sdo with
    buf := sdo.buf.write ((sdo.req.buf.drop sdo.nbyte).take n), nbyte := sdo.nbyte + n }, nbyte - n)

/-- The loop of `co_ssdo_up_buf`, for `fuel` rounds. -/
def upBufLoop (dev : Dev) : Nat → Ssdo → Nat → Ssdo × Option (BitVec 32) × List SOut
  | 0, sdo, _ => (sdo, some 0, [])
  | fuel + 1, sdo, nbyte =>
    if nbyte = 0 then (sdo, some 0, [])
    else if sdo.req.nbyte ≤ sdo.nbyte then
      if sdo.req.last then (sdo, some 0, [])
      else
        let asked := sdo.upInd dev
        if asked.2.1 ≠ some 0 then asked
        else
          let copied := { asked.1 with nbyte := 0 }.upCopy nbyte
          let rest := upBufLoop dev fuel copied.1 copied.2
          (rest.1, rest.2.1, asked.2.2 ++ rest.2.2)
    else
      let copied := sdo.upCopy nbyte
      upBufLoop dev fuel copied.1 copied.2

/-- `co_ssdo_up_buf`: with the default upload indication the second round is the last. -/
def upBuf (sdo : Ssdo) (dev : Dev) (nbyte : Nat) : Ssdo × Option (BitVec 32) × List SOut :=
  match if nbyte = 0 then .room sdo.buf else sdo.buf.reserve nbyte dev.mem with
  | .noMem => (sdo, some acNoMem, [])
  | .never => (sdo, none, [])
  | .room buf => upBufLoop dev 2 { sdo with buf } nbyte

/--
The end of a transition function after an indication that has not returned 0: the transfer is aborted,
or the function never returns either.
-/
def refuse (ind : Ssdo × Option (BitVec 32) × List SOut) : Ssdo × List SOut :=
  match ind.2.1 with
  | none => ({ ind.1 with state := .reserving, timer := false }, ind.2.2)
  | some ac => ((ind.1.abortRes ac).1, ind.2.2 ++ (ind.1.abortRes ac).2)

/-- `co_ssdo_send_dn_ini_res` -/
def sendDnIniRes (sdo : Ssdo) : SOut := .send (iniFrame scsDnIniRes sdo.idx sdo.subidx [])

/-- The end of `co_ssdo_dn_ini_on_recv`, from the download indication on. -/
def dnIniInd (sdo : Ssdo) (dev : Dev) (exp : Bool) : Ssdo × List SOut :=
  let ind := sdo.dnInd dev
  if ind.2.1 ≠ some 0 then refuse ind
  else if exp then (ind.1.abortInd, ind.2.2 ++ [ind.1.sendDnIniRes])
  else ({ ind.1.armTimer with state := .dnSeg }, ind.2.2 ++ [ind.1.sendDnIniRes])

/-- `co_ssdo_dn_ini_on_recv` -/
def dnIniOnRecv (sdo : Ssdo) (dev : Dev) (msg : Msg) : Ssdo × List SOut :=
  if msg.length < 3 then sdo.abortRes LocalOd.acNoObj
  else
    let sdo := { sdo with idx := msg.idx }
    if msg.length < 4 then sdo.abortRes LocalOd.acNoSub
    else
      let exp : Bool := msg.cs &&& iniSizeExp ≠ 0
      let size :=
        if exp then if msg.cs &&& iniSizeInd ≠ 0 then iniSizeExpGet msg.cs else msg.length - 4
        else if msg.cs &&& iniSizeInd ≠ 0 then Dcf.leNat msg.data
        else 0
      let buf := if exp then msg.data.take size else []
      { sdo with subidx := msg.subidx, req := { sdo.req.clear with size, buf } }.dnIniInd dev exp

/-- The end of `co_ssdo_dn_seg_on_recv`, from the download indication on. -/
def dnSegInd (sdo : Ssdo) (dev : Dev) (last : Bool) : Ssdo × List SOut :=
  let ind := sdo.dnInd dev
  if ind.2.1 ≠ some 0 then refuse ind
  else
    -- `co_ssdo_send_dn_seg_res`
    let res := SOut.send (segFrame (scsDnSegRes ||| ind.1.toggle) [])
    let sdo := { ind.1 with toggle := ind.1.toggle ^^^ segToggle }
    if last then (sdo.abortInd, ind.2.2 ++ [res])
    else (sdo.armTimer, ind.2.2 ++ [res])

/-- `co_ssdo_dn_seg_on_recv` -/
def dnSegOnRecv (sdo : Ssdo) (dev : Dev) (msg : Msg) : Ssdo × List SOut :=
  if msg.length < 1 then sdo.abortRes acNoCs
  else if msg.cs &&& csMask = ccsDnSegReq then
    if msg.cs &&& segToggle ≠ sdo.toggle then (sdo, [])
    else
      let n := segSizeGet msg.cs
      if msg.length < 1 + n then sdo.abortRes acNoCs
      else if sdo.req.size < sdo.req.offset + sdo.req.nbyte + n then sdo.abortRes acTypeLenHi
      else
        let last : Bool := msg.cs &&& segLast ≠ 0
        let sdo := { sdo with req := { sdo.req with
          buf := (msg.drop 1).take n, offset := sdo.req.offset + sdo.req.nbyte } }
        if last && !sdo.req.last then sdo.abortRes acTypeLenLo else sdo.dnSegInd dev last
  else if msg.cs &&& csMask = csAbort then (sdo.abortInd, [])
  else sdo.abortRes acNoCs

/-- The end of `co_ssdo_up_ini_on_recv`, from the upload indication on. -/
def upIniInd (sdo : Ssdo) (dev : Dev) : Ssdo × List SOut :=
  let ind := sdo.upInd dev
  if ind.2.1 ≠ some 0 then refuse ind
  else if ind.1.req.size ≠ 0 ∧ ind.1.req.size ≤ 4 then
    let read := ind.1.upBuf dev ind.1.req.size
    if read.2.1 ≠ some 0 then ((refuse read).1, ind.2.2 ++ (refuse read).2)
    else
      -- `co_ssdo_send_up_exp_res`
      let cs := scsUpIniRes ||| iniSizeExpSet read.1.buf.data.length
      (read.1.abortInd, ind.2.2 ++ read.2.2
        ++ [.send (iniFrame cs read.1.idx read.1.subidx read.1.buf.data)])
  else
    -- `co_ssdo_send_up_ini_res`
    ({ ind.1.armTimer with state := .upSeg }, ind.2.2
      ++ [.send (iniFrame (scsUpIniRes ||| iniSizeInd) ind.1.idx ind.1.subidx
        (Dcf.leBytes 4 ind.1.req.size))])

/-- `co_ssdo_up_ini_on_recv` -/
def upIniOnRecv (sdo : Ssdo) (dev : Dev) (msg : Msg) : Ssdo × List SOut :=
  if msg.length < 3 then sdo.abortRes LocalOd.acNoObj
  else
    let sdo := { sdo with idx := msg.idx }
    if msg.length < 4 then sdo.abortRes LocalOd.acNoSub
    else { sdo with subidx := msg.subidx, req := sdo.req.clear }.upIniInd dev

/-- The end of `co_ssdo_up_seg_on_recv`, from `co_ssdo_up_buf` on. -/
def upSegBuf (sdo : Ssdo) (dev : Dev) : Ssdo × List SOut :=
  let read := { sdo with buf := sdo.buf.clear }.upBuf dev 7
  if read.2.1 ≠ some 0 then refuse read
  else
    let last := read.1.req.last && read.1.nbyte = read.1.req.nbyte
    -- `co_ssdo_send_up_seg_res`
    let cs := scsUpSegRes ||| read.1.toggle ||| segSizeSet read.1.buf.data.length
    let cs := if last then cs ||| segLast else cs
    let sdo := { read.1 with toggle := read.1.toggle ^^^ segToggle }
    let res := SOut.send (segFrame cs read.1.buf.data)
    if last then (sdo.abortInd, read.2.2 ++ [res])
    else (sdo.armTimer, read.2.2 ++ [res])

/-- `co_ssdo_up_seg_on_recv` -/
def upSegOnRecv (sdo : Ssdo) (dev : Dev) (msg : Msg) : Ssdo × List SOut :=
  if msg.length < 1 then sdo.abortRes acNoCs
  else if msg.cs &&& csMask = ccsUpSegReq then
    if msg.cs &&& segToggle ≠ sdo.toggle then sdo.abortRes acToggle
    else sdo.upSegBuf dev
  else if msg.cs &&& csMask = csAbort then (sdo.abortInd, [])
  else sdo.abortRes acNoCs

/-- `co_ssdo_wait_on_recv` -/
def waitOnRecv (sdo : Ssdo) (dev : Dev) (msg : Msg) : Ssdo × List SOut :=
  if msg.length < 1 then sdo.abortRes acNoCs
  else if msg.cs &&& csMask = ccsDnIniReq then sdo.dnIniOnRecv dev msg
  else if msg.cs &&& csMask = ccsUpIniReq then sdo.upIniOnRecv dev msg
  else if msg.cs &&& csMask = csAbort then (sdo, [])
  else sdo.abortRes acNoCs

/-- `co_ssdo_emit_recv`. A server that is stopped has no CAN frame receiver. -/
def emitRecv (sdo : Ssdo) (dev : Dev) (msg : Msg) : Ssdo × List SOut :=
  match sdo.state with
  | .stopped | .reserving => (sdo, [])
  | .wait => sdo.waitOnRecv dev msg
  | .dnSeg => sdo.dnSegOnRecv dev msg
  | .upSeg => sdo.upSegOnRecv dev msg

/-- `co_ssdo_emit_abort`: the `on_abort` functions of the segment states are one. -/
def emitAbort (sdo : Ssdo) (ac : BitVec 32) : Ssdo × List SOut :=
  match sdo.state with
  | .stopped | .wait | .reserving => (sdo, [])
  | .dnSeg | .upSeg => sdo.abortRes ac

/-- `co_ssdo_timer`, which the CAN timer calls once. -/
def onTimer (sdo : Ssdo) : Ssdo × List SOut := { sdo with timer := false }.emitAbort acTimeout

/-- `co_ssdo_set_timeout` -/
def setTimeout (sdo : Ssdo) (timeout : Nat) : Ssdo :=
  { sdo with timeout, timer := sdo.timer && !(sdo.timeout ≠ 0 ∧ timeout = 0) }

/-- `co_ssdo_stop` -/
def stop (sdo : Ssdo) : Ssdo × List SOut :=
  if sdo.state = .stopped ∨ sdo.state = .reserving then (sdo, [])
  else
    let r := sdo.emitAbort acNoSdo
    ({ r.1 with timer := false, state := .stopped }, r.2)

/-- `co_ssdo_start` of a server whose SDO parameters do not change. -/
def start (sdo : Ssdo) : Ssdo := if sdo.state = .stopped then { sdo with state := .wait } else sdo

/-! ### How a transfer ends -/

/-- No transfer is going on, and none has left anything behind. -/
structure Idle (sdo : Ssdo) : Prop where
  state : sdo.state = .wait ∨ sdo.state = .stopped
  toggle : sdo.toggle = 0
  nbyte : sdo.nbyte = 0
  buf : sdo.buf.data = []

/-- No transfer is going on, or it will never go on. -/
def Rests (sdo : Ssdo) : Prop := sdo.Idle ∨ sdo.state = .reserving

/-- A segmented transfer is going on. -/
def Segment (sdo : Ssdo) : Prop := sdo.state = .dnSeg ∨ sdo.state = .upSeg

variable {sdo : Ssdo}

theorem abortInd_idle (sdo : Ssdo) : sdo.abortInd.Idle := ⟨.inl rfl, rfl, rfl, rfl⟩

theorem emitAbort_rests (h : sdo.Rests) (ac : BitVec 32) : sdo.emitAbort ac = (sdo, []) := by
  rcases h with h | hs
  . rcases h.state with hs | hs <;> rw [emitAbort, hs]
  . rw [emitAbort, hs]

theorem Rests.stop (h : sdo.Rests) : sdo.stop.1.Rests ∧ sdo.stop.2 = [] := by
  unfold Ssdo.stop
  split
  . exact ⟨h, rfl⟩
  . next hstate =>
    rw [emitAbort_rests h]
    have hidle := h.resolve_right fun hs => hstate (.inr hs)
    exact ⟨.inl ⟨.inr rfl, hidle.toggle, hidle.nbyte, hidle.buf⟩, rfl⟩

theorem Rests.start (h : sdo.Rests) : sdo.start.Rests := by
  unfold Ssdo.start
  split
  . next hstate =>
    have hidle := h.resolve_right fun hs => by rw [hs] at hstate; cases hstate
    exact .inl ⟨.inl rfl, hidle.toggle, hidle.nbyte, hidle.buf⟩
  . exact h

theorem emitAbort_segment (h : sdo.Segment) (ac : BitVec 32) : sdo.emitAbort ac = sdo.abortRes ac := by
  rcases h with hs | hs <;> rw [emitAbort, hs]

/-- An abort frame ends a transfer without an answer. -/
theorem recv_abort (h : sdo.Rests ∨ sdo.Segment) (dev : Dev) {msg : Msg} (hmsg : IsAbort msg)
    : (sdo.emitRecv dev msg).1.Rests ∧ (sdo.emitRecv dev msg).2 = [] := by
  have hlen : ¬ msg.length < 1 := Nat.not_lt_of_le hmsg.1
  have hidle := abortInd_idle sdo
  rcases h with (h | hs) | h | h
  . rcases h.state with hs | hs
    . rw [emitRecv, hs]
      simp only [waitOnRecv, if_neg hlen, hmsg.2]
      exact ⟨.inl h, rfl⟩
    . rw [emitRecv, hs]
      exact ⟨.inl h, rfl⟩
  . rw [emitRecv, hs]
    exact ⟨.inr hs, rfl⟩
  . rw [emitRecv, h]
    simp only [dnSegOnRecv, if_neg hlen, hmsg.2]
    exact ⟨.inl hidle, rfl⟩
  . rw [emitRecv, h]
    simp only [upSegOnRecv, if_neg hlen, hmsg.2]
    exact ⟨.inl hidle, rfl⟩

/-- A frame with a command specifier that the state has no use for is answered with an abort. -/
theorem recv_noCs (dev : Dev) {msg : Msg} (hlen : 1 ≤ msg.length)
    (h : (sdo.state = .wait ∧ (msg.cs &&& csMask = 0x00 ∨ msg.cs &&& csMask = 0x60))
      ∨ (sdo.state = .dnSeg ∧ (msg.cs &&& csMask = 0x20 ∨ msg.cs &&& csMask = 0x40))
      ∨ (sdo.state = .upSeg ∧ (msg.cs &&& csMask = 0x20 ∨ msg.cs &&& csMask = 0x40)))
    : sdo.emitRecv dev msg = sdo.abortRes acNoCs := by
  have hlen : ¬ msg.length < 1 := Nat.not_lt_of_le hlen
  rcases h with ⟨hs, hcs | hcs⟩ | ⟨hs, hcs | hcs⟩ | ⟨hs, hcs | hcs⟩ <;>
    rw [emitRecv, hs] <;>
    simp only [waitOnRecv, dnSegOnRecv, upSegOnRecv, if_neg hlen, hcs] <;>
    rfl

end Ssdo

end LelyRtt.Wire
