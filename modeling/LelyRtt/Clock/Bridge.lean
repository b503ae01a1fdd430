import LelyRtt.Clock.CanNet

/-!
This module contains the way of a deadline from the CAN network to the one-shot timer of RT-Thread and
back: the wait of the network (`upstream/src/io2/can_net.c`), the timer queue
(`upstream/src/io2/tqueue.c`), the passive timer (`upstream/src/io2/user/timer.c`) and the timer bridge
of the port.
-/

namespace LelyRtt.Clock

/-- The waits that the network submits to the timer queue: `wait_next` and `wait_confirm`. -/
inductive Wait where
  | next
  | confirm
  deriving DecidableEq, Repr

/-- Where a wait is: nowhere, in the timer queue, or posted to the executor. -/
inductive WaitPlace where
  | idle
  | queued (value : TimeSpec)
  | posted
  deriving DecidableEq, Repr

/-- Where the wait of the timer queue itself is: nowhere, at the passive timer, or posted. -/
inductive QueuePlace where
  | idle
  | waiting
  | posted
  deriving DecidableEq, Repr

/-- The value of a wait in the timer queue. -/
def WaitPlace.value : WaitPlace → Option TimeSpec
  | .queued value => some value
  | _ => none

def WaitPlace.isQueued (place : WaitPlace) : Bool := place.value.isSome

/--
What the layers keep, from the network down: `struct io_can_net` (`next`, `nextSubmitted`),
`struct io_tqueue` (`queueNext`, `queueSubmitted`), `struct io_user_timer` (`now`, `expiry`, `userNext`)
and the port with the tick at which its one-shot timer triggers (`armed`), the event `TIMER_DUE` and the
ticks of RT-Thread so far. A deadline that is as far away as the one-shot timer reaches leaves `far`
behind.
-/
structure Bridge (ι : Type) where
  net : CanNet ι
  next : TimeSpec
  nextSubmitted : Bool
  places : Wait → WaitPlace
  queueNext : TimeSpec
  queueSubmitted : Bool
  queuePlace : QueuePlace
  now : TimeSpec
  expiry : TimeSpec
  userNext : TimeSpec
  armed : Option Nat
  far : Bool
  due : Bool
  ticks : Nat

namespace Bridge

variable {ι : Type} (hz : Nat)

/-- `{ 0, 0 }`, which stands for no time -/
def zero : TimeSpec := ⟨0, 0⟩

/-- The network is created after `ticks` ticks. -/
def init (ι : Type) (ticks : Nat) : Bridge ι where
  net := { CanNet.init ι with time := clock hz ticks }
  next := zero
  nextSubmitted := false
  places := fun _ => .idle
  queueNext := zero
  queueSubmitted := false
  queuePlace := .idle
  now := clock hz ticks
  expiry := zero
  userNext := zero
  armed := none
  far := false
  due := false
  ticks := ticks

/--
`lely_rtt_timer_setnext`, as one step: no tick falls between `lely_rtt_time_now` and `rt_timer_start`.
The exit for a runtime that shuts down and an `rt_timer_start` that fails are left out.
-/
def setnext (s : Bridge ι) (next : TimeSpec) : Bridge ι :=
  match timerSetnext hz (clock hz s.ticks) next with
  | .disarm => { s with armed := none }
  | .due => { s with armed := none, due := true }
  | .arm ticks => { s with armed := some (s.ticks + ticks.toNat), far := s.far || ticks = maxTicks }

/-- The first half of `io_user_timer_do_settime`: an expiry that is over posts what waits for it. -/
def expire (s : Bridge ι) : Bridge ι :=
  if s.expiry ≠ zero ∧ timespecCmp s.expiry s.now ≤ 0 then
    { s with
      expiry := zero
      queuePlace := if s.queuePlace = .waiting then .posted else s.queuePlace }
  else
    s

/-- The second half of `io_user_timer_do_settime`: a new expiry is handed on. -/
def handOn (s : Bridge ι) : Bridge ι :=
  if timespecCmp s.userNext s.expiry ≠ 0 then
    { s with userNext := s.expiry }.setnext hz s.expiry
  else
    s

/-- `io_user_timer_do_settime` of a timer without an interval -/
def doSettime (s : Bridge ι) : Bridge ι := s.expire.handOn hz

/-- `io_user_timer_settime` with `TIMER_ABSTIME` -/
def timerSettime (s : Bridge ι) (value : TimeSpec) : Bridge ι := { s with expiry := value }.doSettime hz

/-- `io_user_timer_submit_wait` of the wait of the timer queue -/
def timerSubmitWait (s : Bridge ι) : Bridge ι := { s with queuePlace := .waiting }.doSettime hz

/-- `io_timer_cancel_wait` -/
def timerCancelWait (s : Bridge ι) : Bridge ι :=
  if s.queuePlace = .waiting then { s with queuePlace := .posted } else s

/-- `pheap_empty` of the timer queue -/
def queueEmpty (s : Bridge ι) : Bool := !(s.places .next).isQueued && !(s.places .confirm).isQueued

/-- The value of the first wait in the timer queue. -/
def queueFirst (s : Bridge ι) : Option TimeSpec :=
  match (s.places .next).value, (s.places .confirm).value with
  | some v, some v' => some (if timespecCmp v' v < 0 then v' else v)
  | some v, none => some v
  | none, value => value

/-- The timer of the queue is set to a wait. -/
def queueSet (s : Bridge ι) (value : TimeSpec) : Bridge ι :=
  { s with queueNext := value }.timerSettime hz value

/-- The wait of the queue itself is submitted unless it is already. -/
def queueWait (s : Bridge ι) : Bridge ι :=
  if !s.queueSubmitted && !s.queueEmpty then
    { s with queueSubmitted := true }.timerSubmitWait hz
  else
    s

/-- `io_tqueue_submit_wait` -/
def submitWait (s : Bridge ι) (wait : Wait) (value : TimeSpec) : Bridge ι :=
  let s := { s with places := Function.update s.places wait (.queued value) }
  let s := if s.queueNext = zero ∨ timespecCmp value s.queueNext < 0 then s.queueSet hz value else s
  s.queueWait hz

/-- `io_tqueue_abort_wait` -/
def abortWait (s : Bridge ι) (wait : Wait) : Bool × Bridge ι :=
  let aborted := (s.places wait).isQueued
  let s := if aborted then { s with places := Function.update s.places wait .idle } else s
  (aborted, if s.queueEmpty && s.queueSubmitted then s.timerCancelWait else s)

/-- A wait whose time has come is posted. -/
def post (now : TimeSpec) : WaitPlace → WaitPlace
  | .queued value => if timespecCmp now value < 0 then .queued value else .posted
  | place => place

/-- `io_tqueue_wait_func` -/
def waitFunc (s : Bridge ι) : Bridge ι :=
  let s :=
    { s with
      places := fun wait => post s.now (s.places wait)
      queueNext := zero
      queueSubmitted := false
      queuePlace := .idle }
  let s :=
    match s.queueFirst with
    | none => s
    | some value => s.queueSet hz value
  s.queueWait hz

/-- `wait_next` is submitted for a new time. -/
def resubmit (s : Bridge ι) (tp : TimeSpec) : Bridge ι :=
  { s with nextSubmitted := true }.submitWait hz .next tp

/-- `io_can_net_next_func` -/
def nextFunc (s : Bridge ι) (tp : TimeSpec) : Bridge ι :=
  if timespecCmp s.next tp = 0 then
    s
  else
    let s := { s with next := tp }
    if !s.nextSubmitted then
      s.resubmit hz tp
    else
      let r := s.abortWait .next
      if r.1 then r.2.resubmit hz tp else r.2

/-- The network has done something, and has called `io_can_net_next_func` for what it handed on. -/
def withNet (s : Bridge ι) (net : CanNet ι) : Bridge ι :=
  (net.reported.drop s.net.reported.length).foldl (nextFunc hz) { s with net := net }

/-- `io_can_net_wait_next_func`, in which `can_net_set_time` leaves the network behind as `net` -/
def waitNextFunc (s : Bridge ι) (net : CanNet ι) : Bridge ι :=
  let s := { s with places := Function.update s.places .next .idle }.withNet hz net
  let submit := timespecCmp s.net.time s.next < 0
  let s := { s with nextSubmitted := submit }
  if submit then s.submitWait hz .next s.next else s

/-- `lely_rtt_timer_advance`, after the owner has received its events -/
def advance (s : Bridge ι) : Bridge ι := { s with due := false, now := clock hz s.ticks }.doSettime hz

variable [DecidableEq ι]

/-- `timespec_valid` of a time that is not zero, with a `time_t` of 64 bits. -/
def Valid (tp : TimeSpec) : Prop := zero < tp ∧ tp.Normalized ∧ tp.sec < 2 ^ 63

/--
What happens: RT-Thread counts a tick, its timer triggers, the owner advances the passive
timer, the loop runs what is posted, a service starts or stops a timer, a frame or the owner itself
brings the network up to date, and a write waits for its confirmation or does so no longer. A timer
that is started while `wait_next` is nowhere is not due yet, and neither is a confirmation that is
submitted while the timer queue waits for nothing.
-/
inductive Step : Bridge ι → Bridge ι → Prop
  | tick {s : Bridge ι} : Step s { s with ticks := s.ticks + 1 }
  | fire {s : Bridge ι} (tick : Nat) (harmed : s.armed = some tick) (htick : tick ≤ s.ticks) :
    Step s { s with armed := none, due := true }
  | advance {s : Bridge ι} : Step s (s.advance hz)
  | waitFunc {s : Bridge ι} (hposted : s.queuePlace = .posted) : Step s (s.waitFunc hz)
  | waitNextFunc {s : Bridge ι} (hposted : s.places .next = .posted) {σ : Type} (func : TimerFunc ι σ)
    (fuel : Nat) (st : σ) (pass : Pass ι σ) (hpass : s.net.setTime func fuel st s.now = some pass)
    (hvalid : ∀ tp ∈ pass.net.reported.drop s.net.reported.length, Valid tp) :
    Step s (s.waitNextFunc hz pass.net)
  | setTime {s : Bridge ι} {σ : Type} (func : TimerFunc ι σ) (fuel : Nat) (st : σ) (pass : Pass ι σ)
    (hpass : s.net.setTime func fuel st s.now = some pass)
    (hvalid : ∀ tp ∈ pass.net.reported.drop s.net.reported.length, Valid tp) :
    Step s (s.withNet hz pass.net)
  | timerOp {s : Bridge ι} (op : TimerOp ι)
    (hvalid : ∀ tp ∈ (s.net.apply op).reported.drop s.net.reported.length, Valid tp)
    (hlater : s.places .next = .idle →
      ∀ tp ∈ (s.net.apply op).reported.drop s.net.reported.length, s.now < tp) :
    Step s (s.withNet hz (s.net.apply op))
  | submitConfirm {s : Bridge ι} (value : TimeSpec) (hidle : s.places .confirm = .idle)
    (hvalid : Valid value) (hlater : s.queuePlace = .idle → s.now < value) :
    Step s (s.submitWait hz .confirm value)
  | abortConfirm {s : Bridge ι} : Step s (s.abortWait .confirm).2
  | confirmFunc {s : Bridge ι} (hposted : s.places .confirm = .posted) :
    Step s { s with places := Function.update s.places .confirm .idle }

inductive Reaches : Bridge ι → Prop
  | init (ticks : Nat) : Reaches (.init hz ι ticks)
  | step {s s' : Bridge ι} (h : Reaches s) (hstep : Step hz s s') : Reaches s'

/-! ### The passive timer and the one-shot timer -/

omit [DecidableEq ι]

variable {hz} {s s' : Bridge ι} {wait : Wait} {value tp : TimeSpec}

theorem le_iff_ns {t1 t2 : TimeSpec} (h1 : t1.Normalized) (h2 : t2.Normalized)
    : t1 ≤ t2 ↔ t1.ns ≤ t2.ns := by
  rw [← not_lt, TimeSpec.lt_iff]
  unfold TimeSpec.Normalized at h1 h2
  unfold TimeSpec.ns
  omega

theorem clock_le (hlow : 1 ≤ hz) {n n' : Nat} (h : n ≤ n') : clock hz n ≤ clock hz n' :=
  (le_iff_ns (clock_normalized hlow n) (clock_normalized hlow n')).2 (clock_mono hlow h)

theorem zero_le_clock (n : Nat) : zero ≤ clock hz n := by
  rw [← not_lt, TimeSpec.lt_iff]
  have hsec : 0 ≤ (clock hz n).sec := Int.natCast_nonneg _
  have hnsec : 0 ≤ (clock hz n).nsec := Int.natCast_nonneg _
  change ¬((clock hz n).sec < 0 ∨ (clock hz n).sec = 0 ∧ (clock hz n).nsec < 0)
  omega

theorem timespecLe_iff (t1 t2 : TimeSpec) : timespecLe t1 t2 = true ↔ t1 ≤ t2 := by
  rw [← not_lt, TimeSpec.lt_iff]
  unfold timespecLe
  rw [decide_eq_true_iff]
  omega

theorem timespecCmp_eq_iff (t1 t2 : TimeSpec) : timespecCmp t1 t2 = 0 ↔ t1 = t2 := by
  have hneg := timespecCmp_neg_iff t1 t2
  have hpos := timespecCmp_pos_iff t1 t2
  constructor
  . intro heq
    exact le_antisymm (not_lt.1 fun hlt => absurd (hpos.2 hlt) (by omega))
      (not_lt.1 fun hlt => absurd (hneg.2 hlt) (by omega))
  . intro heq
    have hle : ¬t1 < t2 := fun hlt => hlt.ne heq
    have hge : ¬t2 < t1 := fun hlt => hlt.ne heq.symm
    rw [← hneg] at hle
    rw [← hpos] at hge
    omega

/-- A tick that is not before `tp`, and at most one tick after the first one that is not. -/
def Meets (hz : Nat) (tp : TimeSpec) (tick : Nat) : Prop :=
  tp ≤ clock hz tick ∧ ∀ n, tp ≤ clock hz n → tick ≤ n + 1

/-- The one-shot timer runs until `tp`, or the owner has been told. -/
def Armed (hz : Nat) (s : Bridge ι) (tp : TimeSpec) : Prop :=
  tp ≠ zero → s.far = false →
    (∃ tick, s.armed = some tick ∧ Meets hz tp tick) ∨ s.due = true ∧ tp ≤ clock hz s.ticks

/-- The expiry of the passive timer is over. -/
def Expired (s : Bridge ι) : Prop := s.expiry ≠ zero ∧ s.expiry ≤ s.now

theorem expired_iff : (s.expiry ≠ zero ∧ timespecCmp s.expiry s.now ≤ 0) ↔ s.Expired := by
  unfold Expired
  rw [← not_lt (a := s.now), ← timespecCmp_pos_iff, gt_iff_lt, not_lt]

/-- The delay that the port computes meets its deadline. -/
theorem deadlineTicks_meets (hhz : 1 ≤ hz ∧ hz ≤ 1000000000) (hvalid : Valid tp) {n : Nat}
    (hlater : clock hz n < tp)
    (hnear : deadlineTicks hz (clock hz n) tp ≠ maxTicks)
    : Meets hz tp (n + (deadlineTicks hz (clock hz n) tp).toNat) := by
  obtain ⟨hlow, hhigh⟩ := hhz
  obtain ⟨-, hnorm, hsec⟩ := hvalid
  have hns (n' : Nat) : tp ≤ clock hz n' ↔ tp.ns ≤ (clock hz n').ns :=
    le_iff_ns hnorm (clock_normalized hlow n')
  have hlt : (clock hz n).ns < tp.ns := not_le.1 (mt (hns n).2 hlater.not_ge)
  have hfits : tp.sec - (clock hz n).sec < 2 ^ 63 := by
    have hnonneg : 0 ≤ (clock hz n).sec := Int.natCast_nonneg _
    omega
  have hmax := (delay_bounds hlow hhigh hnorm hlt hfits).2
  refine ⟨(hns _).2 (delay_reaches hlow hhigh hnorm hlt hfits (lt_of_le_of_ne hmax hnear)), ?_⟩
  intro n' hn'
  have hafter : n < n' := not_le.1 fun hle => (hlater.trans_le (hn'.trans (clock_le hlow hle))).false
  obtain ⟨d, rfl⟩ := Nat.exists_eq_add_of_lt hafter
  have hle := delay_le_succ hlow hhigh hnorm hlt hfits (d := d + 1) ((hns _).1 hn')
  omega

variable (hhz : 1 ≤ hz ∧ hz ≤ 1000000000)
include hhz

theorem setnext_eq (hvalid : tp ≠ zero → Valid tp)
    : ∃ armed far due, s.setnext hz tp = { s with armed := armed, far := far, due := due }
      ∧ Armed hz { s with armed := armed, far := far, due := due } tp := by
  unfold setnext timerSetnext
  by_cases hzero : tp.sec = 0 ∧ tp.nsec = 0
  . rw [if_pos hzero]
    have htp : tp = zero := TimeSpec.ext hzero.1 hzero.2
    exact ⟨none, s.far, s.due, rfl, fun hne => absurd htp hne⟩
  . rw [if_neg hzero]
    by_cases hle : timespecLe tp (clock hz s.ticks) = true
    . rw [if_pos hle]
      exact ⟨none, s.far, true, rfl, fun _ _ => .inr ⟨rfl, (timespecLe_iff _ _).1 hle⟩⟩
    . rw [if_neg hle]
      refine ⟨_, _, s.due, rfl, fun hne hfar => .inl ⟨_, rfl, ?_⟩⟩
      have hnear := of_decide_eq_false (Bool.or_eq_false_iff.1 hfar).2
      exact deadlineTicks_meets hhz (hvalid hne) (not_le.1 (mt (timespecLe_iff _ _).2 hle)) hnear

theorem handOn_eq (hvalid : s.expiry ≠ zero → Valid s.expiry)
    (harmed : s.userNext = s.expiry → s.Armed hz s.expiry)
    : ∃ armed far due,
      s.handOn hz = { s with userNext := s.expiry, armed := armed, far := far, due := due }
        ∧ Armed hz { s with userNext := s.expiry, armed := armed, far := far, due := due } s.expiry := by
  unfold handOn
  by_cases heq : s.userNext = s.expiry
  . rw [if_neg (not_not.2 ((timespecCmp_eq_iff _ _).2 heq))]
    exact ⟨s.armed, s.far, s.due, congrArg (fun next => { s with userNext := next }) heq, harmed heq⟩
  . rw [if_pos (mt (timespecCmp_eq_iff _ _).1 heq)]
    exact setnext_eq (s := { s with userNext := s.expiry }) hhz hvalid

/-- An expiry that is over is cleared. -/
theorem doSettime_expired (h : s.Expired)
    : ∃ armed far due, s.doSettime hz
      = { s with
          expiry := zero
          queuePlace := if s.queuePlace = .waiting then .posted else s.queuePlace
          userNext := zero
          armed := armed
          far := far
          due := due } := by
  unfold doSettime expire
  rw [if_pos (expired_iff.2 h)]
  obtain ⟨armed, far, due, heq, -⟩ := handOn_eq hhz
    (s := { s with expiry := zero, queuePlace := if s.queuePlace = .waiting then .posted else s.queuePlace })
    (fun hne => absurd rfl hne) fun _ hne => absurd rfl hne
  exact ⟨armed, far, due, heq⟩

theorem doSettime_pending (h : ¬s.Expired) (hvalid : s.expiry ≠ zero → Valid s.expiry)
    (harmed : s.userNext = s.expiry → s.Armed hz s.expiry)
    : ∃ armed far due,
      s.doSettime hz = { s with userNext := s.expiry, armed := armed, far := far, due := due }
        ∧ Armed hz { s with userNext := s.expiry, armed := armed, far := far, due := due } s.expiry := by
  unfold doSettime expire
  rw [if_neg (mt expired_iff.1 h)]
  exact handOn_eq hhz hvalid harmed

omit hhz

/-! ### The timer queue -/

/-- The layers below the network leave it alone, and the time as well. -/
structure Below (s s' : Bridge ι) : Prop where
  net : s'.net = s.net
  next : s'.next = s.next
  nextSubmitted : s'.nextSubmitted = s.nextSubmitted
  now : s'.now = s.now
  ticks : s'.ticks = s.ticks

theorem Below.refl (s : Bridge ι) : s.Below s := ⟨rfl, rfl, rfl, rfl, rfl⟩

/-- The timer of the queue is set to the first wait, unless the queue is about to look at it again. -/
structure Queue (hz : Nat) (s : Bridge ι) : Prop where
  valid : ∀ wait value, s.places wait = .queued value → Valid value
  expiry : s.expiry ≠ zero → Valid s.expiry
  submitted : s.queueSubmitted = true ↔ s.queuePlace ≠ .idle
  idle : s.queuePlace = .idle → s.queueNext = zero ∧ ∀ wait value, s.places wait ≠ .queued value
  waiting : s.queuePlace = .waiting → s.queueNext = s.expiry ∧ zero < s.expiry
    ∧ ∀ wait value, s.places wait = .queued value → s.expiry ≤ value
  start : zero ≤ s.now
  clock : s.now ≤ Clock.clock hz s.ticks

/-- In addition, the port knows the expiry of the passive timer. -/
structure Waits (hz : Nat) (s : Bridge ι) : Prop extends Queue hz s where
  user : s.userNext = s.expiry
  armed : s.Armed hz s.expiry

theorem Queue.doSettime (hhz : 1 ≤ hz ∧ hz ≤ 1000000000) (h : s.Queue hz)
    (harmed : ¬s.Expired → s.userNext = s.expiry → s.Armed hz s.expiry)
    : (s.doSettime hz).Waits hz ∧ s.Below (s.doSettime hz) ∧ (s.doSettime hz).places = s.places
      ∧ ((s.doSettime hz).queuePlace = .idle ↔ s.queuePlace = .idle) := by
  by_cases hexpired : s.Expired
  . obtain ⟨armed, far, due, heq⟩ := doSettime_expired hhz hexpired
    rw [heq]
    have hidle : (if s.queuePlace = .waiting then QueuePlace.posted else s.queuePlace) = .idle
        ↔ s.queuePlace = .idle := by
      cases s.queuePlace <;> decide
    refine ⟨⟨⟨h.valid, fun hne => absurd rfl hne, ?_, ?_, ?_, h.start, h.clock⟩, rfl,
      fun hne => absurd rfl hne⟩,
      ⟨rfl, rfl, rfl, rfl, rfl⟩, rfl, hidle⟩
    . exact h.submitted.trans (not_congr hidle).symm
    . exact fun hplace => h.idle (hidle.1 hplace)
    . have hnot : (if s.queuePlace = .waiting then QueuePlace.posted else s.queuePlace) ≠ .waiting := by
        cases s.queuePlace <;> decide
      exact fun hplace => absurd hplace hnot
  . obtain ⟨armed, far, due, heq, harmed⟩ := doSettime_pending hhz hexpired h.expiry (harmed hexpired)
    rw [heq]
    exact ⟨⟨⟨h.valid, h.expiry, h.submitted, h.idle, h.waiting, h.start, h.clock⟩, rfl, harmed⟩,
      ⟨rfl, rfl, rfl, rfl, rfl⟩, rfl, Iff.rfl⟩

theorem queueEmpty_eq_false (h : s.places wait = .queued value) : s.queueEmpty = false := by
  unfold queueEmpty
  cases wait with
  | next =>
    rw [h]
    rfl
  | confirm =>
    rw [h]
    exact Bool.and_false _

theorem queueEmpty_eq_true (h : ∀ wait value, s.places wait ≠ .queued value) : s.queueEmpty = true := by
  have hnot (wait : Wait) : (s.places wait).isQueued = false := by
    cases hplace : s.places wait with
    | idle => rfl
    | queued value => exact absurd hplace (h wait value)
    | posted => rfl
  unfold queueEmpty
  rw [hnot, hnot]
  rfl

/-- A queue that waits for nothing is set to its first wait, which is not over, and waits for it. -/
theorem start_waits (hhz : 1 ≤ hz ∧ hz ≤ 1000000000) {first : Wait}
    (hsubmitted : s.queueSubmitted = false)
    (hvalid : ∀ wait value, s.places wait = .queued value → Valid value)
    (hfirst : s.places first = .queued value)
    (hle : ∀ wait value', s.places wait = .queued value' → value ≤ value') (hlater : s.now < value)
    (hstart : zero ≤ s.now) (hclock : s.now ≤ clock hz s.ticks)
    (harmed : s.userNext = value → s.Armed hz value)
    : ((s.queueSet hz value).queueWait hz).Waits hz ∧ s.Below ((s.queueSet hz value).queueWait hz)
      ∧ ((s.queueSet hz value).queueWait hz).places = s.places
      ∧ ((s.queueSet hz value).queueWait hz).queuePlace ≠ .idle := by
  obtain ⟨armed, far, due, heq, harmed⟩ := doSettime_pending hhz
    (s := { s with queueNext := value, expiry := value }) (fun h => hlater.not_ge h.2)
    (fun _ => hvalid _ _ hfirst) harmed
  have hset : s.queueSet hz value
      = { s with
          queueNext := value
          expiry := value
          userNext := value
          armed := armed
          far := far
          due := due } := heq
  have hempty : queueEmpty
      { s with
        queueNext := value
        expiry := value
        userNext := value
        armed := armed
        far := far
        due := due } = false :=
    queueEmpty_eq_false hfirst
  rw [hset, queueWait, hempty]
  dsimp only
  rw [hsubmitted, if_pos (show (!false && !false) = true from rfl), timerSubmitWait]
  have hne : QueuePlace.waiting ≠ .idle := by decide
  have hqueue : Queue hz
      { s with
        queueNext := value
        expiry := value
        userNext := value
        armed := armed
        far := far
        due := due
        queueSubmitted := true
        queuePlace := .waiting } :=
    ⟨hvalid, fun _ => hvalid _ _ hfirst, iff_of_true rfl hne, fun h => absurd h hne,
      fun _ => ⟨rfl, (hvalid _ _ hfirst).1, hle⟩, hstart, hclock⟩
  obtain ⟨hwaits, hbelow, hplaces, hidle⟩ := hqueue.doSettime hhz fun _ _ => harmed
  exact ⟨hwaits, ⟨hbelow.net, hbelow.next, hbelow.nextSubmitted, hbelow.now, hbelow.ticks⟩, hplaces,
    fun h => absurd (hidle.1 h) hne⟩

theorem queueWait_of_submitted (h : s.queueSubmitted = true) : s.queueWait hz = s := by
  unfold queueWait
  rw [h]
  rfl

theorem queueWait_of_empty (h : s.queueEmpty = true) : s.queueWait hz = s := by
  unfold queueWait
  rw [h, Bool.not_true, Bool.and_false]
  rfl

theorem update_queued {place : WaitPlace} {wait' : Wait}
    (h : Function.update s.places wait place wait' = .queued value)
    : wait' = wait ∧ place = .queued value ∨ s.places wait' = .queued value := by
  by_cases hwait : wait' = wait
  . rw [hwait, Function.update_self] at h
    exact .inl ⟨hwait, h⟩
  . rw [Function.update_of_ne hwait] at h
    exact .inr h

theorem value_eq_some_iff {place : WaitPlace} : place.value = some value ↔ place = .queued value := by
  cases place with
  | queued value' =>
    exact ⟨fun h => congrArg _ (Option.some.inj h), fun h => congrArg _ (WaitPlace.queued.inj h)⟩
  | idle => exact ⟨fun h => (by cases h), fun h => (by cases h)⟩
  | posted => exact ⟨fun h => (by cases h), fun h => (by cases h)⟩

theorem queueFirst_none (h : s.queueFirst = none) (wait : Wait) (value : TimeSpec)
    : s.places wait ≠ .queued value := by
  intro hplace
  rw [← value_eq_some_iff] at hplace
  unfold queueFirst at h
  cases wait with
  | next =>
    rw [hplace] at h
    cases hconfirm : (s.places .confirm).value <;> rw [hconfirm] at h <;> cases h
  | confirm =>
    rw [hplace] at h
    cases hnext : (s.places .next).value <;> rw [hnext] at h <;> cases h

theorem queueFirst_some (h : s.queueFirst = some value)
    : (∃ first, s.places first = .queued value)
      ∧ ∀ wait value', s.places wait = .queued value' → value ≤ value' := by
  simp only [← value_eq_some_iff]
  unfold queueFirst at h
  cases hnext : (s.places .next).value with
  | none =>
    rw [hnext] at h
    refine ⟨⟨.confirm, h⟩, ?_⟩
    intro wait value' hplace
    cases wait with
    | next => cases hnext.symm.trans hplace
    | confirm => exact (Option.some.inj (h.symm.trans hplace)).le
  | some next =>
    cases hconfirm : (s.places .confirm).value with
    | none =>
      rw [hnext, hconfirm] at h
      obtain rfl := Option.some.inj h
      refine ⟨⟨.next, hnext⟩, ?_⟩
      intro wait value' hplace
      cases wait with
      | next => exact (Option.some.inj (hnext.symm.trans hplace)).le
      | confirm => cases hconfirm.symm.trans hplace
    | some confirm =>
      rw [hnext, hconfirm] at h
      have hmin : value = next ∧ next ≤ confirm ∨ value = confirm ∧ confirm < next := by
        have hvalue := Option.some.inj h
        split_ifs at hvalue with hless
        . exact .inr ⟨hvalue.symm, (timespecCmp_neg_iff _ _).1 hless⟩
        . exact .inl ⟨hvalue.symm, not_lt.1 (mt (timespecCmp_neg_iff _ _).2 hless)⟩
      have hle (wait : Wait) (value' : TimeSpec) (hplace : (s.places wait).value = some value')
          : value' = next ∨ value' = confirm := by
        cases wait with
        | next => exact .inl (Option.some.inj (hplace.symm.trans hnext))
        | confirm => exact .inr (Option.some.inj (hplace.symm.trans hconfirm))
      obtain ⟨rfl, hless⟩ | ⟨rfl, hless⟩ := hmin
      . refine ⟨⟨.next, hnext⟩, fun wait value' hplace => ?_⟩
        obtain rfl | rfl := hle wait value' hplace
        . exact le_rfl
        . exact hless
      . refine ⟨⟨.confirm, hconfirm⟩, fun wait value' hplace => ?_⟩
        obtain rfl | rfl := hle wait value' hplace
        . exact hless.le
        . exact le_rfl

theorem post_queued {now : TimeSpec} {place : WaitPlace} (h : post now place = .queued value)
    : place = .queued value ∧ now < value := by
  cases place with
  | queued value' =>
    unfold post at h
    dsimp only at h
    by_cases hless : timespecCmp now value' < 0
    . rw [if_pos hless] at h
      obtain rfl := WaitPlace.queued.inj h
      exact ⟨rfl, (timespecCmp_neg_iff _ _).1 hless⟩
    . rw [if_neg hless] at h
      cases h
  | idle => cases h
  | posted => cases h

theorem post_eq_idle_iff {now : TimeSpec} {place : WaitPlace} : post now place = .idle ↔ place = .idle := by
  cases place with
  | queued value =>
    unfold post
    dsimp only
    split
    . exact ⟨fun h => (by cases h), fun h => (by cases h)⟩
    . exact ⟨fun h => (by cases h), fun h => (by cases h)⟩
  | idle => exact Iff.rfl
  | posted => exact Iff.rfl

namespace Waits

theorem submitted_of_ne (h : s.Waits hz) (hplace : s.queuePlace ≠ .idle) : s.queueSubmitted = true :=
  h.submitted.2 hplace

theorem submitted_of_eq (h : s.Waits hz) (hplace : s.queuePlace = .idle) : s.queueSubmitted = false :=
  Bool.eq_false_of_not_eq_true fun hsubmitted => h.submitted.1 hsubmitted hplace

theorem submitWait (hhz : 1 ≤ hz ∧ hz ≤ 1000000000) (h : s.Waits hz) (wait : Wait)
    (hvalid : Valid value) (hlater : s.queuePlace = .idle → s.now < value)
    : (s.submitWait hz wait value).Waits hz ∧ s.Below (s.submitWait hz wait value)
      ∧ (s.submitWait hz wait value).places = Function.update s.places wait (.queued value) := by
  have hvalid' (wait' : Wait) (value' : TimeSpec)
      (hplace : Function.update s.places wait (.queued value) wait' = .queued value') : Valid value' := by
    obtain ⟨-, heq⟩ | hplace := update_queued hplace
    . exact WaitPlace.queued.inj heq ▸ hvalid
    . exact h.valid _ _ hplace
  have hself : Function.update s.places wait (WaitPlace.queued value) wait = .queued value :=
    Function.update_self _ _ _
  have harmed (huser : s.userNext = value) : s.Armed hz value := by
    rw [← huser, h.user]
    exact h.armed
  unfold Bridge.submitWait
  dsimp only
  by_cases hplace : s.queuePlace = .idle
  . obtain ⟨hnext, hnone⟩ := h.idle hplace
    rw [if_pos (.inl hnext)]
    obtain ⟨hwaits, hbelow, hplaces, -⟩ := start_waits hhz
      (s := { s with places := Function.update s.places wait (.queued value) })
      (h.submitted_of_eq hplace) hvalid' hself
      (fun wait' value' hplace => by
        obtain ⟨-, heq⟩ | hplace := update_queued hplace
        . exact (WaitPlace.queued.inj heq).le
        . exact absurd hplace (hnone _ _))
      (hlater hplace) h.start h.clock harmed
    exact ⟨hwaits, ⟨hbelow.net, hbelow.next, hbelow.nextSubmitted, hbelow.now, hbelow.ticks⟩, hplaces⟩
  . by_cases hless : s.queueNext = zero ∨ timespecCmp value s.queueNext < 0
    . rw [if_pos hless]
      have hqueue : Queue hz
          { s with
            places := Function.update s.places wait (.queued value)
            queueNext := value
            expiry := value } := by
        refine ⟨hvalid', fun _ => hvalid, h.submitted, fun hidle => absurd hidle hplace, ?_, h.start,
          h.clock⟩
        intro hwaiting
        obtain ⟨hnext, hexpiry, hle⟩ := h.waiting hwaiting
        refine ⟨rfl, hvalid.1, ?_⟩
        intro wait' value' hplace
        obtain ⟨-, heq⟩ | hplace := update_queued hplace
        . exact (WaitPlace.queued.inj heq).le
        . rw [hnext, timespecCmp_neg_iff] at hless
          have hless := hless.resolve_left hexpiry.ne'
          exact hless.le.trans (hle _ _ hplace)
      obtain ⟨hwaits, hbelow, hplaces, hidle⟩ := hqueue.doSettime hhz fun _ => harmed
      have hset : queueSet hz { s with places := Function.update s.places wait (.queued value) } value
          = Bridge.doSettime hz
            { s with
              places := Function.update s.places wait (.queued value)
              queueNext := value
              expiry := value } := rfl
      rw [hset, queueWait_of_submitted (hwaits.submitted_of_ne (mt hidle.1 hplace))]
      exact ⟨hwaits, ⟨hbelow.net, hbelow.next, hbelow.nextSubmitted, hbelow.now, hbelow.ticks⟩,
        hplaces⟩
    . rw [if_neg hless, queueWait_of_submitted
        (s := { s with places := Function.update s.places wait (.queued value) }) (h.submitted_of_ne hplace)]
      rw [not_or, timespecCmp_neg_iff, not_lt] at hless
      refine ⟨⟨⟨hvalid', h.expiry, h.submitted, fun hidle => absurd hidle hplace, ?_, h.start,
        h.clock⟩, h.user, h.armed⟩, ⟨rfl, rfl, rfl, rfl, rfl⟩, rfl⟩
      intro hwaiting
      obtain ⟨hnext, hexpiry, hle⟩ := h.waiting hwaiting
      refine ⟨hnext, hexpiry, ?_⟩
      intro wait' value' hplace
      obtain ⟨-, heq⟩ | hplace := update_queued hplace
      . rw [← WaitPlace.queued.inj heq, ← hnext]
        exact hless.2
      . exact hle _ _ hplace

/-- A wait goes somewhere else than to the timer queue. -/
theorem leave (h : s.Waits hz) (wait : Wait) {place : WaitPlace} (hplace : ∀ value, place ≠ .queued value)
    : Waits hz { s with places := Function.update s.places wait place } := by
  have hold (wait' : Wait) (value : TimeSpec)
      (hqueued : Function.update s.places wait place wait' = .queued value)
      : s.places wait' = .queued value := by
    obtain ⟨-, heq⟩ | hqueued := update_queued hqueued
    . exact absurd heq (hplace value)
    . exact hqueued
  refine ⟨⟨?_, h.expiry, h.submitted, ?_, ?_, h.start, h.clock⟩, h.user, h.armed⟩
  . exact fun wait' value hqueued => h.valid _ _ (hold wait' value hqueued)
  . intro hidle
    obtain ⟨hnext, hnone⟩ := h.idle hidle
    exact ⟨hnext, fun wait' value hqueued => hnone _ _ (hold wait' value hqueued)⟩
  . intro hwaiting
    obtain ⟨hnext, hexpiry, hle⟩ := h.waiting hwaiting
    exact ⟨hnext, hexpiry, fun wait' value hqueued => hle _ _ (hold wait' value hqueued)⟩

theorem timerCancelWait (h : s.Waits hz)
    : s.timerCancelWait.Waits hz ∧ s.Below s.timerCancelWait ∧ s.timerCancelWait.places = s.places
      ∧ (s.timerCancelWait.queuePlace = .idle ↔ s.queuePlace = .idle) := by
  unfold Bridge.timerCancelWait
  split
  next hwaiting =>
    have hne : s.queuePlace ≠ .idle := by
      rw [hwaiting]
      decide
    have hposted : QueuePlace.posted ≠ .idle := by decide
    have hposted' : QueuePlace.posted ≠ .waiting := by decide
    exact ⟨⟨⟨h.valid, h.expiry, iff_of_true (h.submitted_of_ne hne) hposted,
      fun hidle => absurd hidle hposted, fun hwaiting => absurd hwaiting hposted', h.start, h.clock⟩,
      h.user, h.armed⟩,
      ⟨rfl, rfl, rfl, rfl, rfl⟩, rfl, iff_of_false hposted hne⟩
  next => exact ⟨h, .refl s, rfl, Iff.rfl⟩

/-- The wait of the queue itself is canceled if the queue has nothing left to wait for. -/
theorem cancel (h : s.Waits hz)
    : (if s.queueEmpty && s.queueSubmitted then s.timerCancelWait else s).Waits hz
      ∧ s.Below (if s.queueEmpty && s.queueSubmitted then s.timerCancelWait else s)
      ∧ (if s.queueEmpty && s.queueSubmitted then s.timerCancelWait else s).places = s.places
      ∧ ((if s.queueEmpty && s.queueSubmitted then s.timerCancelWait else s).queuePlace = .idle
        ↔ s.queuePlace = .idle) := by
  split
  . exact h.timerCancelWait
  . exact ⟨h, .refl s, rfl, Iff.rfl⟩

theorem abortWait (h : s.Waits hz) (wait : Wait)
    : (s.abortWait wait).2.Waits hz ∧ s.Below (s.abortWait wait).2
      ∧ (s.abortWait wait).2.places
        = (if (s.places wait).isQueued then Function.update s.places wait .idle else s.places)
      ∧ ((s.abortWait wait).2.queuePlace = .idle ↔ s.queuePlace = .idle) := by
  have hnot (value : TimeSpec) : WaitPlace.idle ≠ .queued value := fun hidle => (by cases hidle)
  unfold Bridge.abortWait
  dsimp only
  by_cases hqueued : (s.places wait).isQueued = true
  . simp only [if_pos hqueued]
    obtain ⟨hwaits, hbelow, hplaces, hidle⟩ := (h.leave wait hnot).cancel
    exact ⟨hwaits, ⟨hbelow.net, hbelow.next, hbelow.nextSubmitted, hbelow.now, hbelow.ticks⟩, hplaces,
      hidle⟩
  . simp only [if_neg hqueued]
    exact h.cancel

theorem waitFunc (hhz : 1 ≤ hz ∧ hz ≤ 1000000000) (h : s.Waits hz)
    : (s.waitFunc hz).Waits hz ∧ s.Below (s.waitFunc hz)
      ∧ (s.waitFunc hz).places = fun wait => post s.now (s.places wait) := by
  unfold Bridge.waitFunc
  dsimp only
  cases hfirst : queueFirst
      { s with
        places := fun wait => post s.now (s.places wait)
        queueNext := zero
        queueSubmitted := false
        queuePlace := .idle } with
  | none =>
    have hnone := queueFirst_none hfirst
    have hwaiting : QueuePlace.idle ≠ .waiting := by decide
    dsimp only
    rw [queueWait_of_empty (queueEmpty_eq_true hnone)]
    exact ⟨⟨⟨fun _ _ hplace => absurd hplace (hnone _ _), h.expiry,
      iff_of_false Bool.false_ne_true (fun hne => hne rfl), fun _ => ⟨rfl, hnone⟩,
      fun h => absurd h hwaiting, h.start, h.clock⟩, h.user, h.armed⟩,
      ⟨rfl, rfl, rfl, rfl, rfl⟩, rfl⟩
  | some value =>
    obtain ⟨⟨first, hplace⟩, hle⟩ := queueFirst_some hfirst
    obtain ⟨hwaits, hbelow, hplaces, -⟩ := start_waits hhz rfl
      (fun _ _ hplace => h.valid _ _ (post_queued hplace).1) hplace hle (post_queued hplace).2 h.start h.clock
      fun huser => by
        have hexpiry : s.expiry = value := h.user.symm.trans huser
        rw [← hexpiry]
        exact h.armed
    exact ⟨hwaits, ⟨hbelow.net, hbelow.next, hbelow.nextSubmitted, hbelow.now, hbelow.ticks⟩, hplaces⟩

theorem tick (hlow : 1 ≤ hz) (h : s.Waits hz) : Waits hz { s with ticks := s.ticks + 1 } := by
  have hclock : clock hz s.ticks ≤ clock hz (s.ticks + 1) := clock_le hlow (Nat.le_succ _)
  exact ⟨⟨h.valid, h.expiry, h.submitted, h.idle, h.waiting, h.start, h.clock.trans hclock⟩, h.user,
    fun hne hfar => (h.armed hne hfar).imp id fun hdue => ⟨hdue.1, hdue.2.trans hclock⟩⟩

theorem fire (hlow : 1 ≤ hz) (h : s.Waits hz) {tick : Nat} (harmed : s.armed = some tick)
    (htick : tick ≤ s.ticks) : Waits hz { s with armed := none, due := true } := by
  refine ⟨⟨h.valid, h.expiry, h.submitted, h.idle, h.waiting, h.start, h.clock⟩, h.user, ?_⟩
  intro hne hfar
  refine .inr ⟨rfl, ?_⟩
  obtain ⟨tick', heq, hmeets⟩ | ⟨-, hle⟩ := h.armed hne hfar
  . obtain rfl := Option.some.inj (harmed.symm.trans heq)
    exact hmeets.1.trans (clock_le hlow htick)
  . exact hle

theorem advance (hhz : 1 ≤ hz ∧ hz ≤ 1000000000) (h : s.Waits hz)
    : (s.advance hz).Waits hz ∧ (s.advance hz).net = s.net ∧ (s.advance hz).next = s.next
      ∧ (s.advance hz).nextSubmitted = s.nextSubmitted ∧ (s.advance hz).places = s.places
      ∧ s.now ≤ (s.advance hz).now := by
  have hqueue : Queue hz { s with due := false, now := clock hz s.ticks } :=
    ⟨h.valid, h.expiry, h.submitted, h.idle, h.waiting, h.start.trans h.clock, le_rfl⟩
  obtain ⟨hwaits, hbelow, hplaces, -⟩ := hqueue.doSettime hhz fun hexpired _ hne hfar =>
    (h.armed hne hfar).imp id fun hdue => absurd ⟨hne, hdue.2⟩ hexpired
  refine ⟨hwaits, hbelow.net, hbelow.next, hbelow.nextSubmitted, hplaces, ?_⟩
  exact h.clock.trans hbelow.now.ge

end Waits

end Bridge

end LelyRtt.Clock
