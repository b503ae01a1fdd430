import LelyRtt.Wire.Frame
import LelyRtt.Wire.Membuf

/-!
This module contains the expedited and segmented transfers of the SDO client of Lely
(`upstream/src/co/csdo.c`) and what each frame does to a client in the middle of a transfer.
-/

namespace LelyRtt.Wire

/--
The `co_csdo_..._state`s, without those of block transfers. In the last one the client is in the loop
of `membuf_reserve` and never leaves it: none of its functions is called any more.
-/
inductive CState where
  | stopped
  | wait
  | abort
  | dnIni
  | dnSeg
  | upIni
  | upSeg
  | reserving
  deriving DecidableEq, Repr

/-- `struct __co_csdo`; `timer` says whether the CAN timer runs. -/
structure Csdo where
  state : CState
  valid : Bool
  timeout : Nat
  timer : Bool
  ac : BitVec 32
  idx : UInt16
  subidx : UInt8
  size : Nat
  toggle : UInt8
  /-- The bytes of `dn_buf`, of which `dnCur` are sent. -/
  dnBuf : List UInt8
  dnCur : Nat
  upBuf : Membuf
  dnCon : Bool
  upCon : Bool

/-- What a client does besides changing its own state. -/
inductive COut where
  | send (msg : Msg)
  | dnCon (idx : UInt16) (subidx : UInt8) (ac : BitVec 32)
  | upCon (idx : UInt16) (subidx : UInt8) (ac : BitVec 32) (bytes : List UInt8)

/-- What a transition function does, and the state that it returns. -/
structure CNext where
  sdo : Csdo
  out : List COut := []
  next : Option CState := none

namespace Csdo

/-- `__co_csdo_init` before `co_csdo_start` -/
def init : Csdo where
  state := .stopped
  valid := true
  timeout := 0
  timer := false
  ac := 0
  idx := 0
  subidx := 0
  size := 0
  toggle := 0
  dnBuf := []
  dnCur := 0
  upBuf := .init
  dnCon := false
  upCon := false

/-- `co_csdo_send_abort` -/
def sendAbort (sdo : Csdo) (ac : BitVec 32) : COut :=
  .send (iniFrame csAbort sdo.idx sdo.subidx (Dcf.leBytes 4 ac.toNat))

/-- `co_csdo_abort_ind` -/
def abortInd (sdo : Csdo) (ac : BitVec 32) : CNext := { sdo := { sdo with ac }, next := some .abort }

/-- `co_csdo_abort_res` -/
def abortRes (sdo : Csdo) (ac : BitVec 32) : CNext :=
  { sdo := { sdo with ac }, out := [sdo.sendAbort ac], next := some .abort }

/-- `if (sdo->timeout) can_timer_timeout(...)` -/
def armTimer (sdo : Csdo) : Csdo := { sdo with timer := sdo.timer || sdo.timeout ≠ 0 }

/-- `co_csdo_send_dn_seg_req` -/
def sendDnSegReq (sdo : Csdo) (n : Nat) (last : Bool) : Csdo × COut :=
  let cs := ccsDnSegReq ||| sdo.toggle ||| segSizeSet n
  let cs := if last then cs ||| segLast else cs
  ({ sdo with toggle := sdo.toggle ^^^ segToggle, dnCur := sdo.dnCur + n },
    .send (segFrame cs ((sdo.dnBuf.drop sdo.dnCur).take n)))

/-- `co_csdo_send_up_seg_req` -/
def sendUpSegReq (sdo : Csdo) : Csdo × COut :=
  ({ sdo with toggle := sdo.toggle ^^^ segToggle }, .send (segFrame (ccsUpSegReq ||| sdo.toggle) []))

/-- `co_csdo_abort_on_leave`, the only exit function there is. -/
def onLeave (prev : CState) (sdo : Csdo) : Csdo × List COut :=
  match prev with
  | .abort =>
    let done := { sdo with dnCon := false, upCon := false }
    if sdo.dnCon then (done, [.dnCon sdo.idx sdo.subidx sdo.ac])
    else if sdo.upCon then
      (done, [.upCon sdo.idx sdo.subidx sdo.ac (if sdo.ac = 0 then sdo.upBuf.data else [])])
    else (done, [])
  | _ => (sdo, [])

/-- `co_csdo_abort_on_enter` and `co_csdo_dn_seg_on_enter` -/
def onEnter (next : CState) (sdo : Csdo) : CNext :=
  match next with
  | .abort => { sdo := { sdo with timer := false }, next := some .wait }
  | .dnSeg =>
    let n := sdo.size - sdo.dnCur
    if n ≠ 0 ∨ (sdo.size = 0 ∧ sdo.toggle = 0) then
      let sent := sdo.armTimer.sendDnSegReq (min n 7) (n ≤ 7)
      { sdo := sent.1, out := [sent.2] }
    else sdo.abortInd 0
  | _ => { sdo }

/-- The loop of `co_csdo_enter`, for `fuel` rounds. -/
def enterLoop : Nat → CNext → Csdo × List COut
  | 0, r => (r.sdo, r.out)
  | fuel + 1, r =>
    match r.next with
    | none => (r.sdo, r.out)
    | some next =>
      let left := onLeave r.sdo.state { r.sdo with state := next }
      let entered := onEnter next left.1
      enterLoop fuel { entered with out := r.out ++ left.2 ++ entered.out }

/-- `co_csdo_enter`: no chain of states is longer than three. -/
def enter (r : CNext) : Csdo × List COut := enterLoop 3 r

/-- The answer to an abort frame. -/
def abortFrame (sdo : Csdo) (msg : Msg) : CNext := sdo.abortInd msg.ac

/-- The checks of the object index and sub-index of an initiate response. -/
def otherObject (sdo : Csdo) (msg : Msg) : Bool :=
  msg.length < 4 || (msg.idx != sdo.idx || msg.subidx != sdo.subidx)

/-- `co_csdo_wait_on_recv` -/
def waitOnRecv (sdo : Csdo) (msg : Msg) : CNext :=
  if msg.length < 1 then sdo.abortRes acNoCs
  else if msg.cs &&& csMask = csAbort then sdo.abortFrame msg
  else { sdo }

/-- `co_csdo_dn_ini_on_recv` -/
def dnIniOnRecv (sdo : Csdo) (msg : Msg) : CNext :=
  if msg.length < 1 then sdo.abortRes acNoCs
  else if msg.cs &&& csMask = scsDnIniRes then
    if sdo.otherObject msg then sdo.abortRes acError
    else { sdo, next := some .dnSeg }
  else if msg.cs &&& csMask = csAbort then sdo.abortFrame msg
  else sdo.abortRes acNoCs

/-- `co_csdo_dn_seg_on_recv` -/
def dnSegOnRecv (sdo : Csdo) (msg : Msg) : CNext :=
  if msg.length < 1 then sdo.abortRes acNoCs
  else if msg.cs &&& csMask = scsDnSegRes then
    if msg.cs &&& segToggle = sdo.toggle then sdo.abortRes acToggle
    else { sdo, next := some .dnSeg }
  else if msg.cs &&& csMask = csAbort then sdo.abortFrame msg
  else sdo.abortRes acNoCs

/-- The size of the value that an upload response announces. -/
def iniSize (msg : Msg) : Nat :=
  if msg.cs &&& iniSizeExp ≠ 0 then
    if msg.cs &&& iniSizeInd ≠ 0 then iniSizeExpGet msg.cs else msg.length - 4
  else if msg.cs &&& iniSizeInd ≠ 0 then Dcf.leNat msg.data
  else 0

/-- The end of `co_csdo_up_ini_on_recv`, with the buffer allocated. -/
def upIniData (sdo : Csdo) (exp : Bool) (data : List UInt8) : CNext :=
  if exp then { sdo with upBuf := sdo.upBuf.write (data.take sdo.size) }.abortInd 0
  else
    let sent := sdo.armTimer.sendUpSegReq
    { sdo := sent.1, out := [sent.2], next := some .upSeg }

/-- `co_csdo_up_ini_on_recv` -/
def upIniOnRecv (sdo : Csdo) (mem : Mem) (msg : Msg) : CNext :=
  if msg.length < 1 then sdo.abortRes acNoCs
  else if msg.cs &&& csMask = scsUpIniRes then
    if sdo.otherObject msg then sdo.abortRes acError
    else
      let sdo := { sdo with size := iniSize msg }
      match if sdo.size = 0 then .room sdo.upBuf else sdo.upBuf.reserve sdo.size mem with
      | .noMem => sdo.abortRes acNoMem
      | .never => { sdo := { sdo with timer := false }, next := some .reserving }
      | .room upBuf => { sdo with upBuf }.upIniData (msg.cs &&& iniSizeExp ≠ 0) msg.data
  else if msg.cs &&& csMask = csAbort then sdo.abortFrame msg
  else sdo.abortRes acNoCs

/-- The end of `co_csdo_up_seg_on_recv`, with the segment in the buffer. -/
def upSegData (sdo : Csdo) (last : Bool) : CNext :=
  if last then
    if sdo.size ≠ 0 ∧ sdo.upBuf.data.length ≠ sdo.size then sdo.abortRes acTypeLenLo
    else sdo.abortInd 0
  else
    let sent := sdo.armTimer.sendUpSegReq
    { sdo := sent.1, out := [sent.2], next := some .upSeg }

/-- `co_csdo_up_seg_on_recv` -/
def upSegOnRecv (sdo : Csdo) (msg : Msg) : CNext :=
  if msg.length < 1 then sdo.abortRes acNoCs
  else if msg.cs &&& csMask = scsUpSegRes then
    if msg.cs &&& segToggle = sdo.toggle then { sdo, next := some .upSeg }
    else
      let n := segSizeGet msg.cs
      if msg.length < 1 + n then sdo.abortRes acNoCs
      else if sdo.upBuf.data.length + n > sdo.size then sdo.abortRes acTypeLenHi
      else
        { sdo with upBuf := sdo.upBuf.write ((msg.drop 1).take n) }.upSegData
          (msg.cs &&& segLast ≠ 0)
  else if msg.cs &&& csMask = csAbort then sdo.abortFrame msg
  else sdo.abortRes acNoCs

/-- The state is one of an ongoing transfer, where a timeout or an abort request ends it. -/
def Busy (sdo : Csdo) : Prop :=
  sdo.state = .dnIni ∨ sdo.state = .dnSeg ∨ sdo.state = .upIni ∨ sdo.state = .upSeg

instance (sdo : Csdo) : Decidable sdo.Busy := inferInstanceAs (Decidable (_ ∨ _))

/-- `co_csdo_emit_recv`. A client that is stopped has no CAN frame receiver. -/
def emitRecv (sdo : Csdo) (mem : Mem) (msg : Msg) : Csdo × List COut :=
  match sdo.state with
  | .stopped | .abort | .reserving => (sdo, [])
  | .wait => enter (sdo.waitOnRecv msg)
  | .dnIni => enter (sdo.dnIniOnRecv msg)
  | .dnSeg => enter (sdo.dnSegOnRecv msg)
  | .upIni => enter (sdo.upIniOnRecv mem msg)
  | .upSeg => enter (sdo.upSegOnRecv msg)

/-- `co_csdo_abort_req`: the `on_abort` functions of all busy states are one. -/
def abortReq (sdo : Csdo) (ac : BitVec 32) : Csdo × List COut :=
  if sdo.Busy then enter (sdo.abortRes ac) else (sdo, [])

/-- `co_csdo_timer`, which the CAN timer calls once: so do the `on_time` functions. -/
def onTimer (sdo : Csdo) : Csdo × List COut :=
  { sdo with timer := false }.abortReq acTimeout

/-- `co_csdo_set_timeout` -/
def setTimeout (sdo : Csdo) (timeout : Nat) : Csdo :=
  { sdo with timeout, timer := sdo.timer && !(sdo.timeout ≠ 0 ∧ timeout = 0) }

/-- `co_csdo_stop` -/
def stop (sdo : Csdo) : Csdo × List COut :=
  if sdo.state = .stopped ∨ sdo.state = .reserving then (sdo, [])
  else
    let r := sdo.abortReq acNoSdo
    ({ r.1 with timer := false, state := .stopped }, r.2)

/-- `co_csdo_start` of a client whose SDO parameters do not change. -/
def start (sdo : Csdo) : Csdo := if sdo.state = .stopped then { sdo with state := .wait } else sdo

/-- `co_csdo_send_dn_exp_req` or `co_csdo_send_dn_ini_req` -/
def sendDnReq (sdo : Csdo) : Csdo × COut :=
  if sdo.size ≠ 0 ∧ sdo.size ≤ 4 then
    ({ sdo with dnCur := sdo.dnCur + sdo.size },
      .send (iniFrame (ccsDnIniReq ||| iniSizeExpSet sdo.size) sdo.idx sdo.subidx
        ((sdo.dnBuf.drop sdo.dnCur).take sdo.size)))
  else
    (sdo, .send (iniFrame (ccsDnIniReq ||| iniSizeInd) sdo.idx sdo.subidx (Dcf.leBytes 4 sdo.size)))

/-- `co_csdo_dn_req`; `none` is -1. -/
def dnReq (sdo : Csdo) (idx : UInt16) (subidx : UInt8) (bytes : List UInt8)
    : Option (Csdo × List COut) :=
  if sdo.valid = false ∨ sdo.state ≠ .wait then none
  else
    -- `co_csdo_dn_ind`
    let sdo := { sdo with
      ac := 0, idx, subidx, size := bytes.length % 2 ^ 32, toggle := 0, dnBuf := bytes, dnCur := 0,
      dnCon := true, upCon := false }.armTimer
    let sent := sdo.sendDnReq
    some (enter { sdo := sent.1, out := [sent.2], next := some .dnIni })

/-- `co_csdo_up_req`; `none` is -1. -/
def upReq (sdo : Csdo) (idx : UInt16) (subidx : UInt8) : Option (Csdo × List COut) :=
  if sdo.valid = false ∨ sdo.state ≠ .wait then none
  else
    -- `co_csdo_up_ind`
    let sdo := { sdo with
      ac := 0, idx, subidx, size := 0, toggle := 0, upBuf := sdo.upBuf.clear,
      dnCon := false, upCon := true }.armTimer
    some (enter {
      sdo, out := [.send (iniFrame ccsUpIniReq idx subidx [])], next := some .upIni })

/-! ### How a transfer ends -/

/-- The client once it is through with a transfer. -/
def ended (sdo : Csdo) (ac : BitVec 32) : Csdo :=
  { sdo with ac, state := .wait, timer := false, dnCon := false, upCon := false }

/-- The call of the confirmation function of a transfer. -/
def confirm (sdo : Csdo) (ac : BitVec 32) : List COut :=
  if sdo.dnCon then [.dnCon sdo.idx sdo.subidx ac]
  else if sdo.upCon then [.upCon sdo.idx sdo.subidx ac (if ac = 0 then sdo.upBuf.data else [])]
  else []

/-- No transfer is going on, and no confirmation function is left to be called. -/
structure Over (sdo : Csdo) : Prop where
  state : sdo.state = .wait ∨ sdo.state = .stopped
  dnCon : sdo.dnCon = false
  upCon : sdo.upCon = false

/-- No transfer is going on, or it will never go on. -/
def Rests (sdo : Csdo) : Prop := sdo.Over ∨ sdo.state = .reserving

/-- The transfer has ended with an abort code, which was sent to the server or came from it. -/
def Quits (sdo : Csdo) (r : Csdo × List COut) : Prop :=
  ∃ ac, ac ≠ 0 ∧ r.1.Over ∧ ∃ out, (out = [] ∨ out = [sdo.sendAbort ac]) ∧ r.2 = out ++ sdo.confirm ac

variable {sdo : Csdo}

theorem Busy.ne_abort (h : sdo.Busy) : sdo.state ≠ .abort := by
  rintro hstate
  rcases h with h | h | h | h <;> rw [h] at hstate <;> cases hstate

theorem ended_over (sdo : Csdo) (ac : BitVec 32) : (sdo.ended ac).Over := ⟨.inl rfl, rfl, rfl⟩

@[simp] theorem enterLoop_none (fuel : Nat) (out : List COut)
    : enterLoop fuel { sdo, out } = (sdo, out) := by
  cases fuel <;> rfl

theorem onLeave_of_ne {prev : CState} (h : prev ≠ .abort) (sdo : Csdo)
    : onLeave prev sdo = (sdo, []) := by
  cases prev <;> first | rfl | exact absurd rfl h

/-- What comes after the entry into the abort state. -/
theorem onLeave_abort (sdo : Csdo)
    : onLeave .abort sdo
      = ({ sdo with dnCon := false, upCon := false }, sdo.confirm sdo.ac) := by
  simp only [onLeave, confirm]
  split
  . rfl
  . split <;> rfl

theorem enterLoop_abort {fuel : Nat} (h : sdo.state ≠ .abort) (ac : BitVec 32) (out : List COut)
    : enterLoop (fuel + 2) { sdo := { sdo with ac }, out, next := some .abort }
      = (sdo.ended ac, out ++ sdo.confirm ac) := by
  have hleave : ∀ c : Csdo, onLeave sdo.state c = (c, []) := onLeave_of_ne h
  simp only [enterLoop, hleave, onEnter, onLeave_abort, List.append_nil]
  rw [enterLoop_none]
  rfl

theorem enter_abortInd (h : sdo.state ≠ .abort) (ac : BitVec 32)
    : enter (sdo.abortInd ac) = (sdo.ended ac, sdo.confirm ac) :=
  enterLoop_abort h ac []

theorem enter_abortRes (h : sdo.state ≠ .abort) (ac : BitVec 32)
    : enter (sdo.abortRes ac) = (sdo.ended ac, [sdo.sendAbort ac] ++ sdo.confirm ac) :=
  enterLoop_abort h ac _

/-- What a transition function changes before it aborts does not matter. -/
theorem quits_of {sdo' : Csdo} (h : sdo'.state ≠ .abort) {ac : BitVec 32} (hac : ac ≠ 0)
    (hsend : sdo'.sendAbort ac = sdo.sendAbort ac) (hcon : sdo'.confirm ac = sdo.confirm ac)
    : sdo.Quits (enter (sdo'.abortRes ac)) := by
  rw [enter_abortRes h, hsend, hcon]
  exact ⟨ac, hac, ended_over sdo' ac, _, .inr rfl, rfl⟩

theorem quits_abortRes (h : sdo.state ≠ .abort) {ac : BitVec 32} (hac : ac ≠ 0)
    : sdo.Quits (enter (sdo.abortRes ac)) :=
  quits_of h hac rfl rfl

theorem quits_abortFrame (h : sdo.state ≠ .abort) (msg : Msg)
    : sdo.Quits (enter (sdo.abortFrame msg)) := by
  rw [abortFrame, enter_abortInd h]
  exact ⟨msg.ac, msg.ac_ne_zero, ended_over sdo msg.ac, _, .inl rfl, rfl⟩

theorem enter_upSeg (h : sdo.state ≠ .abort) (out : List COut)
    : enter { sdo, out, next := some .upSeg } = ({ sdo with state := .upSeg }, out) := by
  rw [enter, enterLoop]
  dsimp only
  rw [onLeave_of_ne h]
  simp only [onEnter, List.append_nil]
  rfl

/-- These states have no entry function. -/
theorem enter_ini {next : CState} (h : sdo.state ≠ .abort)
    (hnext : next = .dnIni ∨ next = .upIni ∨ next = .reserving) (out : List COut) : enter { sdo, out, next := some next } = ({ sdo with state := next }, out) := by
  rw [enter, enterLoop]
  dsimp only
  rw [onLeave_of_ne h]
  rcases hnext with rfl | rfl | rfl <;> simp only [onEnter, List.append_nil] <;> rfl

/-- Three rounds are enough: the loop of `co_csdo_enter` has ended by then. -/
theorem enterLoop_fuel (r : CNext) (fuel : Nat) : enterLoop (3 + fuel) r = enter r := by
  obtain ⟨sdo, out, next⟩ := r
  cases next with
  | none => rw [enter, enterLoop_none, enterLoop_none]
  | some next =>
    have hwait (sdo : Csdo) (out : List COut) (fuel : Nat)
        : enterLoop (fuel + 1) { sdo, out, next := some .wait }
          = ((onLeave sdo.state { sdo with state := .wait }).1,
            out ++ (onLeave sdo.state { sdo with state := .wait }).2) := by
      simp only [enterLoop, onEnter, List.append_nil, enterLoop_none]
    have habort (sdo : Csdo) (out : List COut) (fuel : Nat)
        : enterLoop (fuel + 2) { sdo, out, next := some .abort }
          = enterLoop 2 { sdo, out, next := some .abort } := by
      simp only [enterLoop.eq_def (fuel + 2), enterLoop.eq_def 2, onEnter, hwait, List.append_nil]
    rw [show 3 + fuel = fuel + 1 + 2 by omega, enter]
    cases next with
    | abort =>
      rw [habort]
      exact (habort sdo out 1).symm
    | dnSeg =>
      simp only [enterLoop.eq_def (fuel + 1 + 2), enterLoop.eq_def 3, onEnter]
      split
      . simp only [enterLoop_none]
      . simp only [abortInd]
        rw [show fuel + 1 + 1 = fuel + 2 from rfl, habort]
    | stopped | wait | dnIni | upIni | upSeg | reserving =>
      simp only [enterLoop, onEnter]

theorem Busy.abortReq (h : sdo.Busy) {ac : BitVec 32} (hac : ac ≠ 0) : sdo.Quits (sdo.abortReq ac) := by
  rw [Csdo.abortReq, if_pos h]
  exact quits_abortRes h.ne_abort hac

theorem Busy.onTimer (h : sdo.Busy) : sdo.Quits sdo.onTimer := by
  have hbusy : { sdo with timer := false }.Busy := h
  rw [Csdo.onTimer, Csdo.abortReq, if_pos hbusy]
  exact quits_of hbusy.ne_abort (by decide) rfl rfl

/-- An abort frame ends a transfer. -/
theorem Busy.recv_abort (h : sdo.Busy) (mem : Mem) {msg : Msg} (hmsg : IsAbort msg)
    : sdo.Quits (sdo.emitRecv mem msg) := by
  have hlen : ¬ msg.length < 1 := Nat.not_lt_of_le hmsg.1
  have hne := h.ne_abort
  have hquits := quits_abortFrame hne msg
  rcases h with h | h | h | h
  . rw [emitRecv, h]
    simp only [dnIniOnRecv, if_neg hlen, hmsg.2]
    exact hquits
  . rw [emitRecv, h]
    simp only [dnSegOnRecv, if_neg hlen, hmsg.2]
    exact hquits
  . rw [emitRecv, h]
    simp only [upIniOnRecv, if_neg hlen, hmsg.2]
    exact hquits
  . rw [emitRecv, h]
    simp only [upSegOnRecv, if_neg hlen, hmsg.2]
    exact hquits

theorem Over.confirm (h : sdo.Over) (ac : BitVec 32) : sdo.confirm ac = [] := by
  simp [Csdo.confirm, h.dnCon, h.upCon]

namespace Rests

theorem not_busy (h : sdo.Rests) : ¬ sdo.Busy := by
  have hstate : sdo.state = .wait ∨ sdo.state = .stopped ∨ sdo.state = .reserving := by
    rcases h with h | h
    . exact h.state.imp_right .inl
    . exact .inr (.inr h)
  rintro (hb | hb | hb | hb) <;> rcases hstate with hs | hs | hs <;> rw [hs] at hb <;> cases hb

theorem abortReq (h : sdo.Rests) (ac : BitVec 32) : sdo.abortReq ac = (sdo, []) := by
  rw [Csdo.abortReq, if_neg h.not_busy]

/-- A client without a transfer confirms nothing and sends abort frames at most. -/
theorem recv (h : sdo.Rests) (mem : Mem) (msg : Msg)
    : (sdo.emitRecv mem msg).1.Rests
      ∧ ((sdo.emitRecv mem msg).2 = [] ∨ (sdo.emitRecv mem msg).2 = [sdo.sendAbort acNoCs]) := by
  rcases h with h | hs
  . rcases h.state with hs | hs
    . have hne : sdo.state ≠ .abort := by simp [hs]
      rw [emitRecv, hs]
      dsimp only [waitOnRecv]
      split
      . rw [enter_abortRes hne, h.confirm]
        exact ⟨.inl (ended_over sdo _), .inr rfl⟩
      . split
        . rw [abortFrame, enter_abortInd hne, h.confirm]
          exact ⟨.inl (ended_over sdo _), .inl rfl⟩
        . rw [enter, enterLoop_none]
          exact ⟨.inl h, .inl rfl⟩
    . rw [emitRecv, hs]
      exact ⟨.inl h, .inl rfl⟩
  . rw [emitRecv, hs]
    exact ⟨.inr hs, .inl rfl⟩

theorem onTimer (h : sdo.Rests) : sdo.onTimer = ({ sdo with timer := false }, []) := by
  have hoff : { sdo with timer := false }.Rests := h.imp (fun h => ⟨h.state, h.dnCon, h.upCon⟩) id
  rw [Csdo.onTimer, hoff.abortReq]

theorem stop (h : sdo.Rests) : sdo.stop.1.Rests ∧ sdo.stop.2 = [] := by
  unfold Csdo.stop
  split
  . exact ⟨h, rfl⟩
  . next hstate =>
    rw [h.abortReq]
    have hover := h.resolve_right fun hs => hstate (.inr hs)
    exact ⟨.inl ⟨.inr rfl, hover.dnCon, hover.upCon⟩, rfl⟩

theorem start (h : sdo.Rests) : sdo.start.Rests := by
  unfold Csdo.start
  split
  . next hstate =>
    have hover := h.resolve_right fun hs => by rw [hs] at hstate; cases hstate
    exact .inl ⟨.inl rfl, hover.dnCon, hover.upCon⟩
  . exact h

end Rests

end Csdo

end LelyRtt.Wire
