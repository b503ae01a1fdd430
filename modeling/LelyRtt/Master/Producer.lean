import LelyRtt.Basic
import LelyRtt.Clock.CanNet

/-!
This module contains the EMCY producer: the commands of the port
(`lely_rtt_master_emcy_dispatch`) and the service of Lely behind them (`upstream/src/co/emcy.c`), with
the error register, the pre-defined error field and the frames that the inhibit time holds back.
-/

namespace LelyRtt.Producer

open Clock

/-- `struct co_emcy_msg` -/
structure Msg where
  eec : BitVec 16
  er : BitVec 8
  deriving DecidableEq, Repr

/-- An EMCY frame of 8 bytes. -/
structure Frame where
  id : BitVec 32
  ide : Bool
  data : List (BitVec 8)
  deriving DecidableEq, Repr

/-- A frame that was handed to `can_net_send`, when, and the value of object 1015 then. -/
structure Sent where
  frame : Frame
  time : TimeSpec
  delay : BitVec 16
  deriving DecidableEq, Repr

/--
`struct __co_emcy` while the service runs, with the objects 1001, 1003, 1014 and 1015 that it works on
and the time of the network. `fields` is the number of error fields of object 1003, if it exists.
-/
structure Service where
  msgs : List Msg
  reg1001 : BitVec 8
  fields : Option Nat
  num1003 : Nat
  errors1003 : List (BitVec 32)
  cobid : Option (BitVec 32)
  delay : BitVec 16
  buf : List Frame
  inhibit : TimeSpec
  time : TimeSpec
  timer : Option TimeSpec
  sent : List Sent
  deriving DecidableEq, Repr

/-- `CO_EMCY_COBID_VALID` -/
def cobidValid : BitVec 32 := 0x80000000#32

/-- `CO_EMCY_COBID_FRAME` -/
def cobidFrame : BitVec 32 := 0x20000000#32

/-- `CAN_MASK_BID` -/
def maskBid : BitVec 32 := 0x7ff#32

/-- `CAN_MASK_EID` -/
def maskEid : BitVec 32 := 0x1fffffff#32

/-- `CO_SDO_AC_NO_WRITE` -/
def acNoWrite : BitVec 32 := 0x06010002#32

/-- `CO_SDO_AC_PARAM_VAL` -/
def acParamVal : BitVec 32 := 0x06090030#32

/-- `CO_SDO_AC_NO_SUB` -/
def acNoSub : BitVec 32 := 0x06090011#32

/-- `CO_SDO_AC_NO_OBJ` -/
def acNoObj : BitVec 32 := 0x06020000#32

/-- `timespec_add_usec` -/
def addUsec (tp : TimeSpec) (usec : Nat) : TimeSpec :=
  tp.add ⟨(usec / 1000000 : Nat), (usec % 1000000 * 1000 : Nat)⟩

/-- The frame that `co_emcy_send` creates. -/
def frameOf (cobid : BitVec 32) (eec : BitVec 16) (er : BitVec 8) (msef : List (BitVec 8)) : Frame :=
  let ide := cobid &&& cobidFrame ≠ 0
  { id := if ide then cobid &&& maskEid else cobid &&& maskBid
    ide := ide
    data := [eec.setWidth 8, (eec >>> 8).setWidth 8, er] ++ msef }

namespace Service

variable (s : Service)

/-- The combined error register of `co_emcy_peek`. -/
def combined : BitVec 8 := s.msgs.foldl (fun er msg => er ||| msg.er) 0

/-- The error code of `co_emcy_peek`. -/
def latest : BitVec 16 :=
  match s.msgs with
  | [] => 0
  | msg :: _ => msg.eec

/-- `co_emcy_set_1003`; the number of messages is cast to 8 bits. -/
def set1003 : Service :=
  match s.fields with
  | none => s
  | some fields =>
    let n := min (s.msgs.length % 256) fields
    { s with
      num1003 := n
      errors1003 := (s.msgs.take n).map (fun msg => msg.eec.setWidth 32) ++ List.replicate (fields - n) 0 }

/-- The loop of `co_emcy_flush`. -/
def flushLoop (s : Service) : List Frame → Service
  | [] => { s with buf := [] }
  | frame :: rest =>
    if timespecCmp s.time s.inhibit < 0 then
      { s with buf := frame :: rest, timer := some s.inhibit }
    else
      flushLoop
        { s with
          inhibit := addUsec s.time (s.delay.toNat * 100)
          sent := s.sent ++ [⟨frame, s.time, s.delay⟩] }
        rest

/-- `co_emcy_flush` -/
def flush : Service := s.flushLoop s.buf

/-- `!(cobid & CO_EMCY_COBID_VALID)` of object 1014, if that exists -/
def producing : Option (BitVec 32) :=
  match s.cobid with
  | none => none
  | some cobid => if cobid &&& cobidValid ≠ 0 then none else some cobid

/-- `co_emcy_send`; `room` is whether the buffer has room for the frame or grows. -/
def send (room : Bool) (eec : BitVec 16) (er : BitVec 8) (msef : List (BitVec 8)) : Bool × Service :=
  let s := { s with reg1001 := er }
  match s.producing with
  | none => (true, s)
  | some cobid =>
    if room then
      (true, { s with buf := s.buf ++ [frameOf cobid eec er msef] }.flush)
    else
      (false, s)

/-- `co_emcy_push`; `alloc` is whether the stack grows. -/
def push (alloc room : Bool) (eec : BitVec 16) (er : BitVec 8) (msef : List (BitVec 8)) : Bool × Service :=
  if eec = 0 then
    (false, s)
  else if !alloc then
    (false, s)
  else
    let s := { s with msgs := ⟨eec, er ||| 1⟩ :: s.msgs }.set1003
    s.send room eec s.combined msef

/-- `co_emcy_remove` -/
def remove (room : Bool) (n : Nat) : Bool × Service :=
  if n ≥ s.msgs.length then
    (true, s)
  else
    let s := { s with msgs := s.msgs.eraseIdx n }.set1003
    if s.msgs ≠ [] then
      s.send room 0 s.combined [s.latest.setWidth 8, (s.latest >>> 8).setWidth 8, 0, 0, 0]
    else
      s.send room 0 0 [0, 0, 0, 0, 0]

/-- `co_emcy_pop` -/
def pop (room : Bool) : Bool × Service := s.remove room 0

/-- `co_emcy_clear` -/
def clear (room : Bool) : Bool × Service :=
  if s.msgs = [] then
    (true, s)
  else
    { s with msgs := [] }.set1003.send room 0 0 [0, 0, 0, 0, 0]

/-- `co_1003_dn_ind` of a value -/
def write1003 (subidx : Nat) (val : BitVec 8) : BitVec 32 × Service :=
  if subidx ≠ 0 then
    (acNoWrite, s)
  else if val ≠ 0 then
    (acParamVal, s)
  else
    (0, { s with msgs := [], num1003 := 0 }.set1003)

/-- `co_1014_dn_ind` of a value, if there is an object 1014 -/
def write1014 (subidx : Nat) (val : BitVec 32) : BitVec 32 × Service :=
  if subidx ≠ 0 then
    (acNoSub, s)
  else
    match s.cobid with
    | none => (acNoObj, s)
    | some old =>
      if val = old then
        (0, s)
      else if val &&& cobidValid = 0 ∧ old &&& cobidValid = 0 ∧ val &&& maskEid ≠ old &&& maskEid then
        (acParamVal, s)
      else if val &&& cobidFrame = 0 ∧ val &&& (maskEid ^^^ maskBid) ≠ 0 then
        (acParamVal, s)
      else
        (0, { s with cobid := some val })

/-- The time of the network advances, and the timer of the service triggers when it is due. -/
def advance (tp : TimeSpec) : Service :=
  let s := { s with time := tp }
  match s.timer with
  | none => s
  | some start => if timespecCmp start tp > 0 then s else { s with timer := none }.flush

end Service

/-- `struct lely_rtt_master_emcy_request` -/
inductive Request where
  | push (errorCode : BitVec 16) (errorRegister : BitVec 8) (manufacturer : List (BitVec 8))
  | pop
  | clear
  deriving DecidableEq, Repr

/-- `-RT_ERROR` where Lely fails -/
def checked (r : Bool × Service) : RtErr × Service := (if r.1 then .ok else .error, r.2)

/-- `lely_rtt_master_emcy_dispatch` while the service runs -/
def emcyDispatch (s : Service) (alloc room : Bool) : Request → RtErr × Service
  | request =>
    if s.producing.isNone then
      (.busy, s)
    else
      match request with
      | .push errorCode errorRegister manufacturer =>
        if errorCode = 0 then
          (.inval, s)
        else
          checked (s.push alloc room errorCode errorRegister manufacturer)
      | .pop => checked (s.pop room)
      | .clear => checked (s.clear room)

/-- What happens to the service: commands of the application, errors of Lely itself, writes, and time. -/
inductive Op where
  | dispatch (request : Request) (alloc room : Bool)
  | push (alloc room : Bool) (eec : BitVec 16) (er : BitVec 8) (msef : List (BitVec 8))
  | remove (room : Bool) (n : Nat)
  | write1003 (subidx : Nat) (val : BitVec 8)
  | write1014 (subidx : Nat) (val : BitVec 32)
  | write1015 (val : BitVec 16)
  | advance (tp : TimeSpec)
  deriving Repr

def apply (s : Service) : Op → Service
  | .dispatch request alloc room => (emcyDispatch s alloc room request).2
  | .push alloc room eec er msef => (s.push alloc room eec er msef).2
  | .remove room n => (s.remove room n).2
  | .write1003 subidx val => (s.write1003 subidx val).2
  | .write1014 subidx val => (s.write1014 subidx val).2
  | .write1015 val => { s with delay := val }
  | .advance tp => s.advance tp

/--
The service when it has been started first, with its objects as a reset of the node leaves them. A
service that NMT creates again after it was stopped finds in them what the last one left.
-/
structure Service.Started (s : Service) : Prop where
  msgs : s.msgs = []
  reg1001 : s.reg1001 = 0
  num1003 : s.num1003 = 0
  errors1003 : ∀ fields, s.fields = some fields → s.errors1003 = List.replicate fields 0
  buf : s.buf = []
  sent : s.sent = []

/-- The service after some operations. -/
def run (s : Service) (ops : List Op) : Service := ops.foldl apply s

/-! ### What the operations leave alone -/

namespace Service

variable (s : Service)

/-- What sending a frame may change. -/
structure Sends (s s' : Service) : Prop where
  msgs : s'.msgs = s.msgs
  fields : s'.fields = s.fields
  num1003 : s'.num1003 = s.num1003
  errors1003 : s'.errors1003 = s.errors1003
  cobid : s'.cobid = s.cobid

theorem Sends.refl : s.Sends s := ⟨rfl, rfl, rfl, rfl, rfl⟩

theorem flushLoop_sends (frames : List Frame)
    : s.Sends (s.flushLoop frames) ∧ (s.flushLoop frames).reg1001 = s.reg1001 := by
  induction frames generalizing s with
  | nil => exact ⟨⟨rfl, rfl, rfl, rfl, rfl⟩, rfl⟩
  | cons frame rest ih =>
    rw [flushLoop]
    split
    . exact ⟨⟨rfl, rfl, rfl, rfl, rfl⟩, rfl⟩
    . exact ⟨⟨(ih _).1.msgs, (ih _).1.fields, (ih _).1.num1003, (ih _).1.errors1003, (ih _).1.cobid⟩, (ih _).2⟩

theorem send_sends (room : Bool) (eec : BitVec 16) (er : BitVec 8) (msef : List (BitVec 8))
    : s.Sends (s.send room eec er msef).2 ∧ (s.send room eec er msef).2.reg1001 = er := by
  unfold send
  dsimp only
  split
  . exact ⟨⟨rfl, rfl, rfl, rfl, rfl⟩, rfl⟩
  . split
    . obtain ⟨hsends, hreg⟩ := flushLoop_sends
        { s with
          reg1001 := er
          buf := s.buf ++ [frameOf _ eec er msef] } (s.buf ++ [frameOf _ eec er msef])
      exact ⟨⟨hsends.msgs, hsends.fields, hsends.num1003, hsends.errors1003, hsends.cobid⟩, hreg⟩
    . exact ⟨⟨rfl, rfl, rfl, rfl, rfl⟩, rfl⟩

/-- The stack has changed, and the other nodes are told. -/
def announce (msgs : List Msg) (room : Bool) (eec : BitVec 16) (msef : List (BitVec 8)) : Service :=
  let s := { s with msgs := msgs }.set1003
  (s.send room eec s.combined msef).2

end Service

/-- An error code as it is told when an error after it is removed. -/
def codeBytes (eec : BitVec 16) : List (BitVec 8) := [eec.setWidth 8, (eec >>> 8).setWidth 8, 0, 0, 0]

/-- Whether the operation finds room for a frame. -/
def Op.room : Op → Bool
  | .dispatch _ _ room => room
  | .push _ room _ _ _ => room
  | .remove room _ => room
  | _ => true

/-- The manufacturer-specific field that comes with a new error. -/
def Op.msef : Op → List (BitVec 8)
  | .dispatch (.push _ _ manufacturer) _ _ => manufacturer
  | .push _ _ _ _ msef => msef
  | _ => []

/-- The operation tells the other nodes what it does to the stack. -/
def Op.announces : Op → Bool
  | .dispatch _ _ _ => true
  | .push _ _ _ _ _ => true
  | .remove _ _ => true
  | _ => false

/-- What an operation can do to the service. -/
inductive Move (s : Service) : Op → Service → Prop
  | stays (op : Op) : Move s op s
  | pushed (op : Op) (hop : op.announces = true) (eec : BitVec 16) (er : BitVec 8) (heec : eec ≠ 0) :
    Move s op (s.announce (⟨eec, er ||| 1⟩ :: s.msgs) op.room eec op.msef)
  | removed (op : Op) (hop : op.announces = true) (msgs : List Msg) (hsub : msgs.Sublist s.msgs)
    (hlt : msgs.length < s.msgs.length) :
    Move s op (s.announce msgs op.room 0 (codeBytes { s with msgs := msgs }.latest))
  | cleared (subidx : Nat) (val : BitVec 8) :
    Move s (.write1003 subidx val) { s with msgs := [], num1003 := 0 }.set1003
  | cobid (subidx : Nat) (val : BitVec 32) (cobid : Option (BitVec 32)) :
    Move s (.write1014 subidx val) { s with cobid := cobid }
  | delay (val : BitVec 16) : Move s (.write1015 val) { s with delay := val }
  | advance (tp : TimeSpec) : Move s (.advance tp) (s.advance tp)

namespace Service

variable (s : Service)

theorem set1003_eq : ∃ num errors, s.set1003 = { s with num1003 := num, errors1003 := errors } := by
  unfold set1003
  split
  . exact ⟨s.num1003, s.errors1003, rfl⟩
  . exact ⟨_, _, rfl⟩

theorem set1003_msgs : s.set1003.msgs = s.msgs := by
  obtain ⟨_, _, heq⟩ := s.set1003_eq
  rw [heq]

/-- No error is left. -/
theorem announce_nil (room : Bool)
    : s.announce [] room 0 (codeBytes { s with msgs := [] }.latest)
      = ({ s with msgs := [] }.set1003.send room 0 0 [0, 0, 0, 0, 0]).2 := by
  have hcombined : { s with msgs := [] }.set1003.combined = 0 := by
    rw [combined, set1003_msgs]
    rfl
  have hcode : codeBytes { s with msgs := [] }.latest = [0, 0, 0, 0, 0] := by
    change codeBytes 0 = [0, 0, 0, 0, 0]
    decide
  unfold announce
  dsimp only
  rw [hcombined, hcode]

theorem push_move (op : Op) (hop : op.announces = true) (alloc : Bool) (eec : BitVec 16) (er : BitVec 8)
    : Move s op (s.push alloc op.room eec er op.msef).2 := by
  unfold push
  split
  . exact .stays op
  next heec =>
    split
    . exact .stays op
    . exact .pushed op hop eec er heec

theorem remove_move (op : Op) (hop : op.announces = true) (n : Nat) : Move s op (s.remove op.room n).2 := by
  unfold remove
  split
  . exact .stays op
  next hn =>
    have hlt : (s.msgs.eraseIdx n).length < s.msgs.length := by
      rw [List.length_eraseIdx_of_lt (by omega)]
      omega
    have hmove : Move s op (s.announce (s.msgs.eraseIdx n) op.room 0
        (codeBytes { s with msgs := s.msgs.eraseIdx n }.latest)) :=
      .removed op hop _ (List.eraseIdx_sublist s.msgs n) hlt
    dsimp only
    rw [set1003_msgs]
    dsimp only
    split
    next hmsgs =>
      have hlatest : { s with msgs := s.msgs.eraseIdx n }.set1003.latest
          = { s with msgs := s.msgs.eraseIdx n }.latest := by
        rw [latest, set1003_msgs, latest]
      rw [hlatest]
      exact hmove
    next hmsgs =>
      rw [Decidable.of_not_not hmsgs] at hmove ⊢
      rw [announce_nil] at hmove
      exact hmove

theorem clear_move (op : Op) (hop : op.announces = true) : Move s op (s.clear op.room).2 := by
  unfold clear
  split
  . exact .stays op
  next hmsgs =>
    have hmove : Move s op (s.announce [] op.room 0 (codeBytes { s with msgs := [] }.latest)) :=
      .removed op hop [] (List.nil_sublist _) (List.length_pos_of_ne_nil hmsgs)
    rw [announce_nil] at hmove
    exact hmove

end Service

/-- Each operation is one of the moves. -/
theorem apply_move (s : Service) (op : Op) : Move s op (apply s op) := by
  cases op with
  | dispatch request alloc room =>
    unfold apply emcyDispatch
    dsimp only
    split
    . exact .stays _
    . cases request with
      | push errorCode errorRegister manufacturer =>
        dsimp only
        split
        . exact .stays _
        . exact s.push_move (.dispatch (.push errorCode errorRegister manufacturer) alloc room) rfl alloc
            errorCode errorRegister
      | pop => exact s.remove_move (.dispatch .pop alloc room) rfl 0
      | clear => exact s.clear_move (.dispatch .clear alloc room) rfl
  | push alloc room eec er msef => exact s.push_move (.push alloc room eec er msef) rfl alloc eec er
  | remove room n => exact s.remove_move (.remove room n) rfl n
  | write1003 subidx val =>
    unfold apply Service.write1003
    dsimp only
    split
    . exact .stays _
    . split
      . exact .stays _
      . exact .cleared subidx val
  | write1014 subidx val =>
    unfold apply Service.write1014
    dsimp only
    split
    . exact .stays _
    . split
      . exact .stays _
      . split
        . exact .stays _
        . split
          . exact .stays _
          . split
            . exact .stays _
            . exact .cobid subidx val _
  | write1015 val => exact .delay val
  | advance tp => exact .advance tp

/-! ### The object dictionary -/

namespace Service

variable {s : Service}

/-- Object 1003 shows the errors of the stack, the latest first, as far as 8 bits count them. -/
def Shown (s : Service) : Prop :=
  ∀ fields, s.fields = some fields →
    s.num1003 = min (s.msgs.length % 256) fields
      ∧ s.errors1003 = (s.msgs.take s.num1003).map (fun msg => msg.eec.setWidth 32)
        ++ List.replicate (fields - s.num1003) 0

theorem shown_set1003 (s : Service) : s.set1003.Shown := by
  intro fields hfields
  obtain ⟨num, errors, heq⟩ := s.set1003_eq
  have hfields' : s.fields = some fields := by
    rw [heq] at hfields
    exact hfields
  unfold set1003
  rw [hfields']
  exact ⟨rfl, rfl⟩

theorem Sends.shown {s' : Service} (h : s.Sends s') (hshown : s.Shown) : s'.Shown := by
  intro fields hfields
  rw [h.fields] at hfields
  rw [h.num1003, h.errors1003, h.msgs]
  exact hshown fields hfields

theorem advance_sends (s : Service) (tp : TimeSpec)
    : s.Sends (s.advance tp) ∧ (s.advance tp).reg1001 = s.reg1001 := by
  unfold advance
  dsimp only
  split
  . exact ⟨⟨rfl, rfl, rfl, rfl, rfl⟩, rfl⟩
  . split
    . exact ⟨⟨rfl, rfl, rfl, rfl, rfl⟩, rfl⟩
    . obtain ⟨hsends, hreg⟩ := flushLoop_sends { s with time := tp, timer := none } s.buf
      exact ⟨⟨hsends.msgs, hsends.fields, hsends.num1003, hsends.errors1003, hsends.cobid⟩, hreg⟩

theorem announce_msgs (s : Service) (msgs : List Msg) (room : Bool) (eec : BitVec 16) (msef : List (BitVec 8))
    : (s.announce msgs room eec msef).msgs = msgs := by
  unfold announce
  dsimp only
  rw [(send_sends _ _ _ _ _).1.msgs, set1003_msgs]

theorem announce_combined (s : Service) (msgs : List Msg) (room : Bool) (eec : BitVec 16)
    (msef : List (BitVec 8))
    : (s.announce msgs room eec msef).combined = { s with msgs := msgs }.combined := by
  rw [combined, announce_msgs]
  rfl

theorem announce_latest (s : Service) (msgs : List Msg) (room : Bool) (eec : BitVec 16)
    (msef : List (BitVec 8))
    : (s.announce msgs room eec msef).latest = { s with msgs := msgs }.latest := by
  rw [latest, announce_msgs, latest]

theorem announce_reg (s : Service) (msgs : List Msg) (room : Bool) (eec : BitVec 16) (msef : List (BitVec 8))
    : (s.announce msgs room eec msef).reg1001 = (s.announce msgs room eec msef).combined := by
  rw [announce_combined]
  unfold announce
  dsimp only
  rw [(send_sends _ _ _ _ _).2, combined, set1003_msgs]
  rfl

theorem announce_shown (s : Service) (msgs : List Msg) (room : Bool) (eec : BitVec 16)
    (msef : List (BitVec 8)) : (s.announce msgs room eec msef).Shown :=
  (send_sends _ _ _ _ _).1.shown (shown_set1003 _)

/-- Each error has a code and bit 0 of its register. -/
def Marked (s : Service) : Prop := ∀ msg ∈ s.msgs, msg.eec ≠ 0 ∧ msg.er.getLsbD 0 = true

theorem foldl_or_bit (msgs : List Msg) {er : BitVec 8} (her : er.getLsbD 0 = true)
    : (msgs.foldl (fun er msg => er ||| msg.er) er).getLsbD 0 = true := by
  induction msgs generalizing er with
  | nil => exact her
  | cons msg msgs ih => exact ih (by rw [BitVec.getLsbD_or, her, Bool.true_or])

theorem Marked.combined (h : s.Marked) (hmsgs : s.msgs ≠ []) : s.combined.getLsbD 0 = true := by
  unfold Service.combined
  cases hlist : s.msgs with
  | nil => exact absurd hlist hmsgs
  | cons msg msgs =>
    have hbit := (h msg (by rw [hlist]; exact List.mem_cons_self)).2
    exact foldl_or_bit msgs (by rw [BitVec.getLsbD_or, hbit, Bool.or_true])

end Service

theorem Move.shown {s s' : Service} {op : Op} (h : Move s op s') (hshown : s.Shown) : s'.Shown := by
  cases h with
  | stays => exact hshown
  | pushed => exact Service.announce_shown _ _ _ _ _
  | removed => exact Service.announce_shown _ _ _ _ _
  | cleared => exact Service.shown_set1003 _
  | cobid => exact hshown
  | delay => exact hshown
  | advance tp => exact (s.advance_sends tp).1.shown hshown

theorem Move.marked {s s' : Service} {op : Op} (h : Move s op s') (hmarked : s.Marked) : s'.Marked := by
  intro msg hmsg
  cases h with
  | stays => exact hmarked msg hmsg
  | pushed _ hop eec er heec =>
    rw [Service.announce_msgs] at hmsg
    rcases List.mem_cons.1 hmsg with rfl | hmsg
    . refine ⟨heec, ?_⟩
      rw [BitVec.getLsbD_or]
      exact Bool.or_true _
    . exact hmarked msg hmsg
  | removed _ hop msgs hsub hlt =>
    rw [Service.announce_msgs] at hmsg
    exact hmarked msg (hsub.subset hmsg)
  | cleared =>
    rw [Service.set1003_msgs] at hmsg
    cases hmsg
  | cobid => exact hmarked msg hmsg
  | delay => exact hmarked msg hmsg
  | advance tp =>
    rw [(s.advance_sends tp).1.msgs] at hmsg
    exact hmarked msg hmsg

/-- What the registers of some errors combine to. -/
def registers (msgs : List Msg) : BitVec 8 := msgs.foldl (fun er msg => er ||| msg.er) 0

/--
The errors that the error register still tells of although they have gone: those that the last change
of the stack has taken off it, if that was a write that cleared object 1003.
-/
def clearedErrors (s : Service) (errors : List Msg) : List Op → List Msg
  | [] => errors
  | op :: ops =>
    let s' := apply s op
    clearedErrors s' (if s'.msgs = s.msgs then errors else if op.announces then [] else s.msgs) ops

/-- The error register tells of the errors on the stack, or of those that were cleared. -/
structure Told (s : Service) (errors : List Msg) : Prop where
  reg : s.reg1001 = registers (s.msgs ++ errors)
  gone : errors ≠ [] → s.msgs = []

theorem Told.of_eq {s s' : Service} {errors : List Msg} (h : Told s errors) (hreg : s'.reg1001 = s.reg1001)
    (hmsgs : s'.msgs = s.msgs) : Told s' errors := by
  refine ⟨?_, ?_⟩
  . rw [hreg, hmsgs]
    exact h.reg
  . rw [hmsgs]
    exact h.gone

theorem announce_told (s : Service) (msgs : List Msg) (room : Bool) (eec : BitVec 16)
    (msef : List (BitVec 8)) : Told (s.announce msgs room eec msef) [] := by
  refine ⟨?_, fun hne => absurd rfl hne⟩
  rw [List.append_nil]
  exact s.announce_reg msgs room eec msef

theorem Move.told {s s' : Service} {op : Op} (h : Move s op s') {errors : List Msg} (htold : Told s errors)
    : Told s' (if s'.msgs = s.msgs then errors else if op.announces then [] else s.msgs) := by
  cases h with
  | stays | cobid | delay =>
    rw [if_pos rfl]
    exact htold.of_eq rfl rfl
  | pushed _ hop eec er heec =>
    rw [if_neg (by rw [Service.announce_msgs]; exact List.cons_ne_self _ _), if_pos hop]
    exact announce_told _ _ _ _ _
  | removed _ hop msgs hsub hlt =>
    rw [if_neg (by rw [Service.announce_msgs]; rintro rfl; omega), if_pos hop]
    exact announce_told _ _ _ _ _
  | cleared subidx val =>
    obtain ⟨_, _, heq⟩ := { s with msgs := [], num1003 := 0 }.set1003_eq
    rw [heq]
    dsimp only
    split
    next hnil => exact htold.of_eq rfl hnil
    next hsome =>
      -- The errors on the stack are cleared, and nothing writes the register.
      have hgone : errors = [] := Decidable.by_contra fun hne => hsome (htold.gone hne).symm
      refine ⟨?_, fun _ => rfl⟩
      rw [htold.reg, hgone, List.append_nil]
      rfl
  | advance tp =>
    rw [if_pos (s.advance_sends tp).1.msgs]
    exact htold.of_eq (s.advance_sends tp).2 (s.advance_sends tp).1.msgs

theorem Told.run {s : Service} {errors : List Msg} (h : Told s errors) (ops : List Op)
    : Told (run s ops) (clearedErrors s errors ops) := by
  induction ops generalizing s errors with
  | nil => exact h
  | cons op ops ih => exact ih ((apply_move s op).told h)

/-! ### The frames -/

namespace Service

variable {s : Service}

/-- All frames so far, those that wait last. -/
def frames (s : Service) : List Frame := s.sent.map Sent.frame ++ s.buf

/-- Two frames keep the inhibit time between them. -/
def Spaced (first second : Sent) : Prop := addUsec first.time (first.delay.toNat * 100) ≤ second.time

/-- The inhibit time runs from the last frame on, and each frame has kept that of the one before. -/
structure Paced (s : Service) : Prop where
  chain : s.sent.IsChain Spaced
  last : ∀ sent, s.sent.getLast? = some sent → s.inhibit = addUsec sent.time (sent.delay.toNat * 100)

/-- A frame waits only while the inhibit time lasts, and the timer is set to its end. -/
def Armed (s : Service) : Prop := s.buf ≠ [] → s.timer = some s.inhibit ∧ s.time < s.inhibit

theorem Paced.of_eq {s' : Service} (h : s.Paced) (hsent : s'.sent = s.sent) (hinhibit : s'.inhibit = s.inhibit)
    : s'.Paced := by
  refine ⟨?_, ?_⟩
  . rw [hsent]
    exact h.chain
  . rw [hsent, hinhibit]
    exact h.last

theorem flushLoop_frames (s : Service) (frames : List Frame)
    : (s.flushLoop frames).frames = s.sent.map Sent.frame ++ frames := by
  induction frames generalizing s with
  | nil => rfl
  | cons frame rest ih =>
    rw [flushLoop]
    split
    . rfl
    . rw [ih, List.map_append, List.append_assoc]
      rfl

theorem Paced.flushLoop (h : s.Paced) (frames : List Frame)
    : (s.flushLoop frames).Paced ∧ (s.flushLoop frames).Armed := by
  induction frames generalizing s with
  | nil => exact ⟨⟨h.chain, h.last⟩, fun hne => absurd rfl hne⟩
  | cons frame rest ih =>
    rw [Service.flushLoop]
    split
    next hearly => exact ⟨⟨h.chain, h.last⟩, fun _ => ⟨rfl, (timespecCmp_neg_iff _ _).1 hearly⟩⟩
    next hlate =>
      have hle := not_lt.1 fun hlt => hlate ((timespecCmp_neg_iff _ _).2 hlt)
      refine ih ⟨?_, ?_⟩
      . refine List.isChain_append.2 ⟨h.chain, List.isChain_singleton _, ?_⟩
        intro first hfirst second hsecond
        cases hsecond
        rw [Spaced, ← h.last first hfirst]
        exact hle
      . intro sent hsent
        dsimp only at hsent
        rw [List.getLast?_concat] at hsent
        cases hsent
        rfl

theorem Paced.send (h : s.Paced) (harmed : s.Armed) (room : Bool) (eec : BitVec 16) (er : BitVec 8)
    (msef : List (BitVec 8)) : (s.send room eec er msef).2.Paced ∧ (s.send room eec er msef).2.Armed := by
  unfold Service.send
  dsimp only
  split
  . exact ⟨⟨h.chain, h.last⟩, harmed⟩
  . split
    . dsimp only [flush]
      refine Paced.flushLoop ?_ _
      exact h.of_eq rfl rfl
    . exact ⟨⟨h.chain, h.last⟩, harmed⟩

theorem send_frames (s : Service) (room : Bool) (eec : BitVec 16) (er : BitVec 8) (msef : List (BitVec 8))
    : (s.send room eec er msef).2.frames
      = s.frames ++ match s.producing with
        | none => []
        | some cobid => if room then [frameOf cobid eec er msef] else [] := by
  unfold send
  have hproducing : { s with reg1001 := er }.producing = s.producing := rfl
  dsimp only
  rw [hproducing]
  cases s.producing with
  | none => exact (List.append_nil _).symm
  | some cobid =>
    cases room with
    | false => exact (List.append_nil _).symm
    | true =>
      dsimp only
      rw [if_pos rfl, if_pos rfl]
      exact (flushLoop_frames _ _).trans (List.append_assoc _ _ _).symm

theorem announce_frames (s : Service) (msgs : List Msg) (room : Bool) (eec : BitVec 16) (msef : List (BitVec 8))
    : (s.announce msgs room eec msef).frames
      = s.frames ++ match s.producing with
        | none => []
        | some cobid => if room then [frameOf cobid eec { s with msgs := msgs }.combined msef] else [] := by
  obtain ⟨_, _, heq⟩ := { s with msgs := msgs }.set1003_eq
  unfold announce
  dsimp only
  rw [send_frames, heq]
  rfl

theorem Paced.announce (h : s.Paced) (harmed : s.Armed) (msgs : List Msg) (room : Bool) (eec : BitVec 16)
    (msef : List (BitVec 8)) : (s.announce msgs room eec msef).Paced ∧ (s.announce msgs room eec msef).Armed := by
  obtain ⟨_, _, heq⟩ := { s with msgs := msgs }.set1003_eq
  unfold Service.announce
  dsimp only
  rw [heq]
  refine Paced.send ?_ ?_ _ _ _ _
  . exact h.of_eq rfl rfl
  . exact harmed

theorem advance_frames (s : Service) (tp : TimeSpec) : (s.advance tp).frames = s.frames := by
  unfold advance
  dsimp only
  split
  . rfl
  . split
    . rfl
    . exact flushLoop_frames _ _

theorem Paced.advance (h : s.Paced) (harmed : s.Armed) (tp : TimeSpec)
    : (s.advance tp).Paced ∧ (s.advance tp).Armed := by
  unfold Service.advance
  dsimp only
  split
  next hnone =>
    refine ⟨⟨h.chain, h.last⟩, fun hne => ?_⟩
    have htimer := (harmed hne).1
    rw [hnone] at htimer
    cases htimer
  next start hstart =>
    split
    next hlater =>
      refine ⟨⟨h.chain, h.last⟩, fun hne => ?_⟩
      have htimer := (harmed hne).1
      rw [hstart] at htimer
      cases htimer
      exact ⟨hstart, (timespecCmp_pos_iff _ _).1 hlater⟩
    next hdue =>
      unfold flush
      refine Paced.flushLoop ?_ _
      exact h.of_eq rfl rfl

end Service

theorem Move.paced {s s' : Service} {op : Op} (h : Move s op s') (hpaced : s.Paced) (harmed : s.Armed)
    : s'.Paced ∧ s'.Armed := by
  cases h with
  | stays => exact ⟨hpaced, harmed⟩
  | pushed => exact hpaced.announce harmed _ _ _ _
  | removed => exact hpaced.announce harmed _ _ _ _
  | cleared =>
    obtain ⟨_, _, heq⟩ := { s with msgs := [], num1003 := 0 }.set1003_eq
    rw [heq]
    exact ⟨⟨hpaced.chain, hpaced.last⟩, harmed⟩
  | cobid => exact ⟨⟨hpaced.chain, hpaced.last⟩, harmed⟩
  | delay => exact ⟨⟨hpaced.chain, hpaced.last⟩, harmed⟩
  | advance tp => exact hpaced.advance harmed tp

/-- What the change of the stack is for the other nodes, who hear nothing of a write to object 1003. -/
def report (s : Service) (op : Op) : List Frame :=
  let s' := apply s op
  match s.producing with
  | none => []
  | some cobid =>
    if !(op.announces && op.room) then
      []
    else if s.msgs.length < s'.msgs.length then
      [frameOf cobid s'.latest s'.combined op.msef]
    else if s'.msgs.length < s.msgs.length then
      [frameOf cobid 0 s'.combined (codeBytes s'.latest)]
    else
      []

def reports (s : Service) : List Op → List Frame
  | [] => []
  | op :: ops => report s op ++ reports (apply s op) ops

/-- `co_emcy_node_recv` at another node, for `len` bytes of the data -/
def nodeRecv (len : Nat) (data : List (BitVec 8)) : BitVec 16 × BitVec 8 × List (BitVec 8) :=
  (if len ≥ 2 then (data.getD 1 0).setWidth 16 <<< 8 ||| (data.getD 0 0).setWidth 16 else 0,
    if len ≥ 3 then data.getD 2 0 else 0,
    if len ≥ 4 then (data.drop 3).take (max (len - 3) 5) else [0, 0, 0, 0, 0])

theorem nodeRecv_frameOf (cobid : BitVec 32) (eec : BitVec 16) (er : BitVec 8) {msef : List (BitVec 8)}
    (hlen : msef.length = 5) : nodeRecv 8 (frameOf cobid eec er msef).data = (eec, er, msef) := by
  have heec : ((eec >>> 8).setWidth 8).setWidth 16 <<< 8 ||| (eec.setWidth 8).setWidth 16 = eec := by
    ext i hi
    simp only [BitVec.getElem_or, BitVec.getElem_shiftLeft, BitVec.getElem_setWidth, BitVec.getLsbD_setWidth,
      BitVec.getLsbD_ushiftRight]
    by_cases hlow : i < 8
    . simp [hlow, BitVec.getLsbD_eq_getElem hi]
    . have hsum : 8 + (i - 8) = i := by omega
      have hhigh : i - 8 < 8 := by omega
      simp [hlow, hhigh, hsum, BitVec.getLsbD_eq_getElem hi]
  have htake : msef.take 5 = msef := List.take_of_length_le (by omega)
  simp only [nodeRecv, frameOf, List.cons_append, List.nil_append, List.getD_cons_zero, List.getD_cons_succ,
    List.drop_succ_cons, List.drop_zero]
  simp [heec, htake]

theorem apply_frames (s : Service) (op : Op) : (apply s op).frames = s.frames ++ report s op := by
  have hmove := apply_move s op
  unfold report
  dsimp only
  generalize apply s op = s' at hmove
  cases hmove with
  | stays => cases s.producing <;> simp
  | pushed _ hop eec er heec =>
    rw [Service.announce_frames]
    simp only [Service.announce_msgs, Service.announce_latest, Service.announce_combined, hop]
    cases s.producing <;> cases op.room <;> simp [Service.latest]
  | removed _ hop msgs hsub hlt =>
    rw [Service.announce_frames]
    simp only [Service.announce_msgs, Service.announce_latest, Service.announce_combined, hop]
    cases s.producing <;> cases op.room <;> simp [hlt, Nat.lt_asymm hlt]
  | cleared =>
    obtain ⟨_, _, heq⟩ := { s with msgs := [], num1003 := 0 }.set1003_eq
    rw [heq]
    cases s.producing <;> simp [Op.announces, Service.frames]
  | cobid => cases s.producing <;> simp [Op.announces, Service.frames]
  | delay => cases s.producing <;> simp [Op.announces, Service.frames]
  | advance tp =>
    rw [Service.advance_frames]
    cases s.producing <;> simp [Op.announces]

theorem run_frames (s : Service) (ops : List Op) : (run s ops).frames = s.frames ++ reports s ops := by
  induction ops generalizing s with
  | nil => exact (List.append_nil _).symm
  | cons op ops ih =>
    rw [reports, ← List.append_assoc, ← apply_frames]
    exact ih (apply s op)

/-! ### Runs -/

structure Service.Ok (s : Service) : Prop where
  shown : s.Shown
  marked : s.Marked
  paced : s.Paced
  armed : s.Armed

theorem Service.Started.ok {s : Service} (h : s.Started) : s.Ok := by
  refine ⟨?_, ?_, ⟨?_, ?_⟩, fun hne => absurd h.buf hne⟩
  . intro fields hfields
    rw [h.num1003, h.errors1003 fields hfields, h.msgs]
    exact ⟨by simp, by simp⟩
  . intro msg hmsg
    rw [h.msgs] at hmsg
    cases hmsg
  . rw [h.sent]
    exact List.isChain_nil
  . rw [h.sent]
    intro sent hsent
    cases hsent

theorem Service.Ok.apply {s : Service} (h : s.Ok) (op : Op) : (apply s op).Ok := by
  have hmove := apply_move s op
  obtain ⟨hpaced, harmed⟩ := hmove.paced h.paced h.armed
  exact ⟨hmove.shown h.shown, hmove.marked h.marked, hpaced, harmed⟩

theorem Service.Ok.run {s : Service} (h : s.Ok) (ops : List Op) : (run s ops).Ok := by
  induction ops generalizing s with
  | nil => exact h
  | cons op ops ih => exact ih (h.apply op)

/--
The object dictionary after any commands, errors, writes and times: the error register is what the
errors of the stack combine to, with bit 0 if there are any, also when the stack is empty. Only a write
that clears object 1003 leaves the register behind, which tells of the errors that were cleared until
the stack changes again. Object 1003 shows the latest errors, and as many of them as it has fields and
their number modulo 256 says: 256 errors are shown as none, and 258 errors as two.
-/
theorem objects_follow_stack {s : Service} (h : s.Started) (ops : List Op)
    : (run s ops).reg1001 = registers ((run s ops).msgs ++ clearedErrors s [] ops)
      ∧ ((run s ops).msgs ≠ [] → clearedErrors s [] ops = [] ∧ (run s ops).reg1001.getLsbD 0 = true)
      ∧ ∀ fields, (run s ops).fields = some fields →
        (run s ops).num1003 = min ((run s ops).msgs.length % 256) fields
          ∧ (run s ops).errors1003
            = ((run s ops).msgs.take (run s ops).num1003).map (fun msg => msg.eec.setWidth 32)
              ++ List.replicate (fields - (run s ops).num1003) 0 := by
  have hok := h.ok.run ops
  have hstart : Told s [] := by
    refine ⟨?_, fun hne => absurd rfl hne⟩
    rw [h.reg1001, h.msgs]
    rfl
  have htold := hstart.run ops
  refine ⟨htold.reg, fun hmsgs => ?_, hok.shown⟩
  have hnone : clearedErrors s [] ops = [] := Decidable.by_contra fun hne => hmsgs (htold.gone hne)
  refine ⟨hnone, ?_⟩
  rw [htold.reg, hnone, List.append_nil]
  exact hok.marked.combined hmsgs

/-- Object 1003 is cleared between two errors, of which the second one is removed. -/
theorem objects_follow_stack_cleared : ∃ s : Service, s.Started
    ∧ (run s [.push true true 0x5000 4 [0, 0, 0, 0, 0], .write1003 0 0]).reg1001 = 5
    ∧ (run s [.push true true 0x5000 4 [0, 0, 0, 0, 0], .write1003 0 0,
      .push true true 0x1000 0 [0, 0, 0, 0, 0], .remove true 0]).reg1001 = registers ([] ++ []) := by
  have h : Service.Started ⟨[], 0, some 2, 0, [0, 0], some 0x81, 100, [], ⟨0, 0⟩, ⟨0, 0⟩, none, []⟩ :=
    ⟨rfl, rfl, rfl, fun fields hfields => by cases hfields; rfl, rfl, rfl⟩
  exact ⟨_, h, (objects_follow_stack h _).1, (objects_follow_stack h _).1⟩

/--
The frames after any commands, errors, writes and times: what was sent and what still waits is one
frame for each error that is pushed, popped or removed and each stack that is cleared while the producer
is on and there is room for a frame, in order, and none for a write that clears object 1003; between two
frames lies the inhibit time that was set when the first one was sent; what waits, waits only while
the inhibit time lasts, with the timer set to its end; and another node reads the code, the register
and the field that were sent.
-/
theorem frames_in_order {s : Service} (h : s.Started) (ops : List Op)
    : (run s ops).sent.map Sent.frame ++ (run s ops).buf = reports s ops
      ∧ (run s ops).sent.IsChain Service.Spaced
      ∧ ((run s ops).buf ≠ [] →
        (run s ops).timer = some (run s ops).inhibit ∧ (run s ops).time < (run s ops).inhibit)
      ∧ ∀ cobid eec er msef, msef.length = 5 →
        nodeRecv 8 (frameOf cobid eec er msef).data = (eec, er, msef) := by
  have hok := h.ok.run ops
  refine ⟨?_, hok.paced.chain, hok.armed, fun cobid eec er msef => nodeRecv_frameOf cobid eec er⟩
  have hframes := run_frames s ops
  rw [Service.frames, Service.frames, h.sent, h.buf] at hframes
  exact hframes

/-- The second of two errors waits for 10 ms. -/
theorem frames_in_order_inhibited : ∃ s : Service, s.Started
    ∧ (run s [.push true true 0x1000 0 [0, 0, 0, 0, 0], .push true true 0x5000 4 [0, 0, 0, 0, 0],
      .advance ⟨0, 9000000⟩]).buf.length = 1
    ∧ (run s [.push true true 0x1000 0 [0, 0, 0, 0, 0], .push true true 0x5000 4 [0, 0, 0, 0, 0],
      .advance ⟨0, 10000000⟩]).buf = []
    ∧ (run s [.push true true 0x1000 0 [0, 0, 0, 0, 0], .push true true 0x5000 4 [0, 0, 0, 0, 0],
      .advance ⟨0, 10000000⟩]).sent.IsChain Service.Spaced := by
  have h : Service.Started ⟨[], 0, some 2, 0, [0, 0], some 0x81, 100, [], ⟨0, 0⟩, ⟨0, 0⟩, none, []⟩ :=
    ⟨rfl, rfl, rfl, fun fields hfields => by cases hfields; rfl, rfl, rfl⟩
  exact ⟨_, h, rfl, rfl, (frames_in_order h _).2.1⟩

end LelyRtt.Producer
