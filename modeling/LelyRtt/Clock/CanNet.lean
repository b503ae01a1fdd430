import Mathlib.Algebra.BigOperators.Group.Multiset.Basic
import Mathlib.Data.Prod.Lex
import LelyRtt.Clock.Deadline
import LelyRtt.Heap.Pheap

/-!
This module contains the timers of the CAN network (`upstream/src/can/net.c`), from which the services
of CANopen take their timeouts, and the deadline that the network hands on to the timer bridge.
-/

namespace LelyRtt.Clock

open Heap

/-- `timespec_cmp` -/
def timespecCmp (t1 t2 : TimeSpec) : Int :=
  let cmp := (if t2.sec < t1.sec then 1 else 0) - (if t1.sec < t2.sec then 1 else 0)
  if cmp = 0 then
    (if t2.nsec < t1.nsec then 1 else 0) - (if t1.nsec < t2.nsec then 1 else 0)
  else
    cmp

namespace TimeSpec

/-- `timespec_add`, of times that `time_t` holds the sum of. -/
def add (tp inc : TimeSpec) : TimeSpec :=
  let nsec := tp.nsec + inc.nsec
  if nsec ≥ 1000000000 then
    ⟨tp.sec + inc.sec + 1, nsec - 1000000000⟩
  else
    ⟨tp.sec + inc.sec, nsec⟩

/-- `timespec_add_msec` -/
def addMsec (tp : TimeSpec) (msec : Nat) : TimeSpec :=
  tp.add ⟨(msec / 1000 : Nat), (msec % 1000 * 1000000 : Nat)⟩

end TimeSpec

/-- `struct __can_timer`; `net` is not `NULL` if the timer is registered. -/
structure CanTimer where
  registered : Bool
  start : TimeSpec
  interval : TimeSpec
  func : Bool
  deriving DecidableEq, Repr

/-- `interval.tv_sec || interval.tv_nsec` -/
def CanTimer.periodic (timer : CanTimer) : Bool := timer.interval.sec ≠ 0 ∨ timer.interval.nsec ≠ 0

/-- `struct __can_net`, with what it has handed to `next_func` so far. -/
structure CanNet (ι : Type) where
  heap : Pheap ι TimeSpec
  timers : ι → CanTimer
  time : TimeSpec
  next : TimeSpec
  reported : List TimeSpec

/-- What the rest of the stack does with timers. -/
inductive TimerOp (ι : Type) where
  | setFunc (id : ι) (func : Bool)
  | start (id : ι) (start interval : Option TimeSpec)
  | stop (id : ι)
  | timeout (id : ι) (timeout : Int)
  deriving Repr

variable {ι σ : Type} [DecidableEq ι]

namespace CanNet

/-- `__can_net_init`, and `__can_timer_init` of all timers -/
def init (ι : Type) : CanNet ι :=
  ⟨.init, fun _ => ⟨false, ⟨0, 0⟩, ⟨0, 0⟩, false⟩, ⟨0, 0⟩, ⟨0, 0⟩, []⟩

/-- `can_net_set_next` of a network whose `next_func` is set, as `io_can_net_create` does. -/
def setNext (net : CanNet ι) : CanNet ι :=
  match net.heap.root with
  | none => net
  | some root =>
    let next := (net.timers root.id).start
    { net with next := next, reported := net.reported ++ [next] }

/-- The timer leaves the heap. -/
def unregister (net : CanNet ι) (id : ι) : CanNet ι :=
  { net with
    heap := net.heap.remove timespecCmp id
    timers := Function.update net.timers id { net.timers id with registered := false } }

/-- The timer enters the heap. -/
def register (net : CanNet ι) (id : ι) (start interval : TimeSpec) : CanNet ι :=
  { net with
    heap := net.heap.insert timespecCmp id start
    timers := Function.update net.timers id
      { net.timers id with registered := true, start := start, interval := interval } }

/-- `can_timer_stop` -/
def timerStop (net : CanNet ι) (id : ι) : CanNet ι :=
  if (net.timers id).registered then (net.unregister id).setNext else net

/-- `can_timer_start` -/
def timerStart (net : CanNet ι) (id : ι) (start interval : Option TimeSpec) : CanNet ι :=
  let net := net.timerStop id
  if start.isNone && interval.isNone then
    net
  else
    let interval := interval.getD ⟨0, 0⟩
    let start := start.getD (net.time.add interval)
    (net.register id start interval).setNext

/-- `can_timer_timeout` -/
def timerTimeout (net : CanNet ι) (id : ι) (timeout : Int) : CanNet ι :=
  if timeout < 0 then
    net.timerStop id
  else
    net.timerStart id (some (net.time.addMsec timeout.toNat)) none

/-- `can_timer_set_func` -/
def timerSetFunc (net : CanNet ι) (id : ι) (func : Bool) : CanNet ι :=
  { net with timers := Function.update net.timers id { net.timers id with func := func } }

def apply (net : CanNet ι) : TimerOp ι → CanNet ι
  | .setFunc id func => net.timerSetFunc id func
  | .start id start interval => net.timerStart id start interval
  | .stop id => net.timerStop id
  | .timeout id timeout => net.timerTimeout id timeout

/-- A timer that triggers is queued again before its function is called. -/
def requeue (net : CanNet ι) (id : ι) : CanNet ι :=
  let timer := net.timers id
  let net := net.unregister id
  if timer.periodic then
    net.register id (timer.start.add timer.interval) timer.interval
  else
    net

end CanNet

/--
The function of a timer, with the state that it works on: what it does with timers, and whether it
fails.
-/
abbrev TimerFunc (ι σ : Type) : Type := σ → CanNet ι → ι → σ × List (TimerOp ι) × Bool

/-- What `can_net_set_time` has done: the timers that have triggered, with their start. -/
structure Pass (ι σ : Type) where
  st : σ
  net : CanNet ι
  fired : List (ι × TimeSpec)
  failed : Bool

namespace CanNet

/-- A timer triggers: what the loop of `can_net_set_time` does once. -/
def trigger (func : TimerFunc ι σ) (st : σ) (net : CanNet ι) (id : ι) : σ × CanNet ι × Bool :=
  let net := net.requeue id
  if (net.timers id).func then
    let r := func st net id
    (r.1, r.2.1.foldl apply net, r.2.2)
  else
    (st, net, false)

/-- The loop of `can_net_set_time`, for at most `fuel` rounds. -/
def setTimeLoop (func : TimerFunc ι σ) : Nat → σ → CanNet ι → Option (Pass ι σ)
  | 0, _, _ => none
  | fuel + 1, st, net =>
    match net.heap.root with
    | none => some ⟨st, net, [], false⟩
    | some root =>
      let start := (net.timers root.id).start
      if timespecCmp start net.time > 0 then
        some ⟨st, net, [], false⟩
      else
        let r := net.trigger func st root.id
        (setTimeLoop func fuel r.1 r.2.1).map fun pass =>
          { pass with fired := (root.id, start) :: pass.fired, failed := r.2.2 || pass.failed }

/-- `can_net_set_time` -/
def setTime (func : TimerFunc ι σ) (fuel : Nat) (st : σ) (net : CanNet ι) (tp : TimeSpec)
    : Option (Pass ι σ) :=
  (setTimeLoop func fuel st { net with time := tp }).map fun pass =>
    { pass with net := pass.net.setNext }

/-- What the stack has done with the network and its timers so far. -/
inductive Reaches : CanNet ι → Prop
  | init : Reaches (init ι)
  | apply {net : CanNet ι} (h : Reaches net) (op : TimerOp ι) : Reaches (net.apply op)
  | setTime {σ : Type} {net : CanNet ι} (h : Reaches net) (func : TimerFunc ι σ) (fuel : Nat) (st : σ)
    (tp : TimeSpec) (pass : Pass ι σ) (hpass : net.setTime func fuel st tp = some pass) :
    Reaches pass.net

end CanNet

/-! ### The order of times -/

instance : LinearOrder TimeSpec :=
  LinearOrder.lift' (fun t => toLex (t.sec, t.nsec)) fun t1 t2 h => by
    have heq : (t1.sec, t1.nsec) = (t2.sec, t2.nsec) := toLex.injective h
    exact TimeSpec.ext (Prod.mk.inj heq).1 (Prod.mk.inj heq).2

theorem TimeSpec.lt_iff (t1 t2 : TimeSpec) : t1 < t2 ↔ t1.sec < t2.sec ∨ t1.sec = t2.sec ∧ t1.nsec < t2.nsec :=
  Prod.Lex.lt_iff

theorem timespecCmp_neg_iff (t1 t2 : TimeSpec) : timespecCmp t1 t2 < 0 ↔ t1 < t2 := by
  rw [TimeSpec.lt_iff]
  dsimp only [timespecCmp]
  split_ifs <;> omega

theorem timespecCmp_pos_iff (t1 t2 : TimeSpec) : timespecCmp t1 t2 > 0 ↔ t2 < t1 := by
  rw [TimeSpec.lt_iff]
  dsimp only [timespecCmp]
  split_ifs <;> omega

/-! ### The heap holds the timers that are registered -/

structure CanNet.Ok (net : CanNet ι) : Prop where
  heap : net.heap.Ok
  nodup : (net.heap.entries.map Prod.fst).Nodup
  mem_iff : ∀ id start, (id, start) ∈ net.heap.entries
    ↔ (net.timers id).registered = true ∧ (net.timers id).start = start

/-- The last deadline that was handed on is the first of all that are left. -/
structure CanNet.Told (net : CanNet ι) : Prop where
  first : ∀ id, (net.timers id).registered = true → net.next ≤ (net.timers id).start
  exact : (∃ id, (net.timers id).registered = true) →
    (∃ id, (net.timers id).registered = true ∧ (net.timers id).start = net.next)
      ∧ net.reported.getLast? = some net.next

namespace CanNet

variable {net : CanNet ι} {id : ι}

theorem unregister_timers_of_ne {id' : ι} (hne : id' ≠ id)
    : (net.unregister id).timers id' = net.timers id' :=
  Function.update_of_ne hne _ _

theorem unregister_timers_self
    : (net.unregister id).timers id = { net.timers id with registered := false } :=
  Function.update_self _ _ _

theorem register_timers_of_ne {id' : ι} {start interval : TimeSpec} (hne : id' ≠ id)
    : (net.register id start interval).timers id' = net.timers id' :=
  Function.update_of_ne hne _ _

theorem register_timers_self {start interval : TimeSpec}
    : (net.register id start interval).timers id
      = { net.timers id with registered := true, start := start, interval := interval } :=
  Function.update_self _ _ _

omit [DecidableEq ι] in
theorem setNext_heap : net.setNext.heap = net.heap := by
  unfold setNext
  cases net.heap.root <;> rfl

omit [DecidableEq ι] in
theorem setNext_timers : net.setNext.timers = net.timers := by
  unfold setNext
  cases net.heap.root <;> rfl

omit [DecidableEq ι] in
theorem setNext_time : net.setNext.time = net.time := by
  unfold setNext
  cases net.heap.root <;> rfl

theorem timerStop_timers_of_ne {id' : ι} (hne : id' ≠ id)
    : (net.timerStop id).timers id' = net.timers id' := by
  unfold timerStop
  split
  . rw [setNext_timers, unregister_timers_of_ne hne]
  . rfl

theorem timerStop_registered : ((net.timerStop id).timers id).registered = false := by
  unfold timerStop
  split
  . rw [setNext_timers, unregister_timers_self]
  next hreg => exact Bool.eq_false_of_not_eq_true hreg

theorem timerStop_time : (net.timerStop id).time = net.time := by
  unfold timerStop
  split
  . exact setNext_time
  . rfl

theorem timerStart_timers_of_ne {id' : ι} {start interval : Option TimeSpec} (hne : id' ≠ id)
    : (net.timerStart id start interval).timers id' = net.timers id' := by
  unfold timerStart
  dsimp only
  split
  . exact timerStop_timers_of_ne hne
  . rw [setNext_timers, register_timers_of_ne hne, timerStop_timers_of_ne hne]

theorem timerStart_time {start interval : Option TimeSpec}
    : (net.timerStart id start interval).time = net.time := by
  unfold timerStart
  dsimp only
  split
  . exact timerStop_time
  . rw [setNext_time]
    exact timerStop_time

theorem timerSetFunc_registered {id' : ι} {func : Bool}
    : ((net.timerSetFunc id func).timers id').registered = (net.timers id').registered := by
  unfold timerSetFunc
  by_cases hid : id' = id
  . rw [hid]
    dsimp only
    rw [Function.update_self]
  . dsimp only
    rw [Function.update_of_ne hid]

theorem timerSetFunc_start {id' : ι} {func : Bool}
    : ((net.timerSetFunc id func).timers id').start = (net.timers id').start := by
  unfold timerSetFunc
  by_cases hid : id' = id
  . rw [hid]
    dsimp only
    rw [Function.update_self]
  . dsimp only
    rw [Function.update_of_ne hid]

theorem apply_time (op : TimerOp ι) : (net.apply op).time = net.time := by
  cases op with
  | setFunc id func => rfl
  | start id start interval => exact timerStart_time
  | stop id => exact timerStop_time
  | timeout id timeout =>
    unfold apply timerTimeout
    dsimp only
    split
    . exact timerStop_time
    . exact timerStart_time

theorem foldl_time (ops : List (TimerOp ι)) : (ops.foldl apply net).time = net.time := by
  induction ops generalizing net with
  | nil => rfl
  | cons op ops ih => exact ih.trans (apply_time op)

theorem requeue_time : (net.requeue id).time = net.time := by
  unfold requeue
  dsimp only
  split <;> rfl

theorem trigger_time {func : TimerFunc ι σ} {st : σ} : (net.trigger func st id).2.1.time = net.time := by
  unfold trigger
  dsimp only
  split
  . exact (foldl_time _).trans requeue_time
  . exact requeue_time

namespace Ok

omit [DecidableEq ι] in
theorem setNext (h : net.Ok) : net.setNext.Ok := by
  refine ⟨?_, ?_, ?_⟩
  . rw [setNext_heap]
    exact h.heap
  . rw [setNext_heap]
    exact h.nodup
  . rw [setNext_heap, setNext_timers]
    exact h.mem_iff

/-- What stays in the heap when a timer leaves it. -/
theorem entries_unregister (h : net.Ok) (hreg : (net.timers id).registered = true)
    : net.heap.entries = (id, (net.timers id).start) ::ₘ (net.unregister id).heap.entries := by
  have hmem := (h.mem_iff id _).2 ⟨hreg, rfl⟩
  obtain ⟨start, hentries⟩ : ∃ start, net.heap.entries
      = (id, start) ::ₘ (net.heap.remove timespecCmp id).entries := Pheap.entries_remove hmem
  have hstart := (h.mem_iff id start).1 (hentries ▸ Multiset.mem_cons_self _ _)
  rw [hstart.2]
  exact hentries

theorem unregister (h : net.Ok) (hreg : (net.timers id).registered = true) : (net.unregister id).Ok := by
  have hentries := h.entries_unregister hreg
  have hnodup := h.nodup
  rw [hentries, Multiset.map_cons, Multiset.nodup_cons] at hnodup
  refine ⟨h.heap.remove timespecCmp_neg_iff ((h.mem_iff id _).2 ⟨hreg, rfl⟩), hnodup.2, ?_⟩
  intro id' start
  by_cases hid : id' = id
  . rw [hid, unregister_timers_self]
    refine ⟨fun hmem => ?_, fun hreg => absurd hreg.1 (by simp)⟩
    exact absurd (Multiset.mem_map_of_mem Prod.fst hmem) hnodup.1
  . rw [unregister_timers_of_ne hid, ← h.mem_iff, hentries, Multiset.mem_cons]
    exact ⟨.inr, fun hmem => hmem.resolve_left fun heq => hid (Prod.mk.inj heq).1⟩

theorem register (h : net.Ok) (hreg : (net.timers id).registered = false) (start interval : TimeSpec)
    : (net.register id start interval).Ok := by
  have hentries : (net.register id start interval).heap.entries = (id, start) ::ₘ net.heap.entries :=
    Pheap.entries_insert _ _ _
  have hnew (start' : TimeSpec) : (id, start') ∉ net.heap.entries := by
    intro hmem
    have hmem := ((h.mem_iff id start').1 hmem).1
    rw [hreg] at hmem
    cases hmem
  refine ⟨h.heap.insert timespecCmp_neg_iff _ _, ?_, ?_⟩
  . rw [hentries, Multiset.map_cons, Multiset.nodup_cons]
    refine ⟨?_, h.nodup⟩
    intro hmem
    obtain ⟨⟨id', start'⟩, hmem, heq⟩ := Multiset.mem_map.1 hmem
    cases heq
    exact hnew start' hmem
  . intro id' start'
    rw [hentries, Multiset.mem_cons]
    by_cases hid : id' = id
    . rw [hid, register_timers_self]
      refine ⟨?_, fun heq => .inl (Prod.ext rfl heq.2.symm)⟩
      rintro (heq | hmem)
      . exact ⟨rfl, (Prod.mk.inj heq).2.symm⟩
      . exact absurd hmem (hnew start')
    . rw [register_timers_of_ne hid, ← h.mem_iff]
      exact ⟨fun hmem => hmem.resolve_left fun heq => hid (Prod.mk.inj heq).1, .inr⟩

theorem timerStop (h : net.Ok) (id : ι) : (net.timerStop id).Ok := by
  unfold CanNet.timerStop
  split
  next hreg => exact (h.unregister hreg).setNext
  next hreg => exact h

theorem timerStart (h : net.Ok) (id : ι) (start interval : Option TimeSpec)
    : (net.timerStart id start interval).Ok := by
  have hstop := h.timerStop id
  unfold CanNet.timerStart
  dsimp only
  split
  . exact hstop
  . exact (hstop.register timerStop_registered _ _).setNext

theorem timerSetFunc (h : net.Ok) (id : ι) (func : Bool) : (net.timerSetFunc id func).Ok := by
  refine ⟨h.heap, h.nodup, ?_⟩
  intro id' start
  rw [timerSetFunc_registered, timerSetFunc_start]
  exact h.mem_iff id' start

theorem apply (h : net.Ok) (op : TimerOp ι) : (net.apply op).Ok := by
  cases op with
  | setFunc id func => exact h.timerSetFunc id func
  | start id start interval => exact h.timerStart id start interval
  | stop id => exact h.timerStop id
  | timeout id timeout =>
    unfold CanNet.apply CanNet.timerTimeout
    dsimp only
    split
    . exact h.timerStop id
    . exact h.timerStart id _ _

theorem foldl (h : net.Ok) (ops : List (TimerOp ι)) : (ops.foldl CanNet.apply net).Ok := by
  induction ops generalizing net with
  | nil => exact h
  | cons op ops ih => exact ih (h.apply op)

theorem requeue (h : net.Ok) (hreg : (net.timers id).registered = true) : (net.requeue id).Ok := by
  have hout := h.unregister hreg
  unfold CanNet.requeue
  dsimp only
  split
  . exact hout.register (by rw [unregister_timers_self]) _ _
  . exact hout

theorem trigger (h : net.Ok) (hreg : (net.timers id).registered = true) (func : TimerFunc ι σ) (st : σ)
    : (net.trigger func st id).2.1.Ok := by
  have hrequeue := h.requeue hreg
  unfold CanNet.trigger
  dsimp only
  split
  . exact hrequeue.foldl _
  . exact hrequeue

omit [DecidableEq ι] in
/-- The root of the heap is the first timer. -/
theorem first (h : net.Ok) {root : Tree ι TimeSpec} (hroot : net.heap.root = some root)
    : (net.timers root.id).registered = true
      ∧ ∀ id, (net.timers id).registered = true → (net.timers root.id).start ≤ (net.timers id).start := by
  obtain ⟨hmem, hle⟩ := h.heap.root_le hroot
  obtain ⟨hreg, hstart⟩ := (h.mem_iff _ _).1 hmem
  refine ⟨hreg, ?_⟩
  intro id hreg'
  rw [hstart]
  exact hle _ ((h.mem_iff id _).2 ⟨hreg', rfl⟩)

omit [DecidableEq ι] in
theorem not_registered (h : net.Ok) (hroot : net.heap.root = none) (id : ι)
    : (net.timers id).registered ≠ true := by
  intro hreg
  have hmem := (h.mem_iff id _).2 ⟨hreg, rfl⟩
  rw [Pheap.entries, hroot] at hmem
  exact absurd hmem (Multiset.notMem_zero _)

omit [DecidableEq ι] in
theorem told (h : net.Ok) : net.setNext.Told := by
  unfold CanNet.setNext
  cases hroot : net.heap.root with
  | none =>
    have hnone := h.not_registered hroot
    exact ⟨fun id hreg => absurd hreg (hnone id), fun ⟨id, hreg⟩ => absurd hreg (hnone id)⟩
  | some root =>
    obtain ⟨hreg, hle⟩ := h.first hroot
    exact ⟨hle, fun _ => ⟨⟨root.id, hreg, rfl⟩, List.getLast?_concat⟩⟩

end Ok

/-! ### The deadline that is handed on -/

theorem Told.apply (h : net.Ok) (htold : net.Told) (op : TimerOp ι) : (net.apply op).Told := by
  have hstop (id : ι) : (net.timerStop id).Told := by
    unfold CanNet.timerStop
    split
    next hreg => exact (h.unregister hreg).told
    next hreg => exact htold
  have hstart (id : ι) (start interval : Option TimeSpec) : (net.timerStart id start interval).Told := by
    unfold CanNet.timerStart
    dsimp only
    split
    . exact hstop id
    . exact ((h.timerStop id).register timerStop_registered _ _).told
  cases op with
  | setFunc id func =>
    refine ⟨?_, ?_⟩
    . intro id' hreg
      change (((net.timerSetFunc id func).timers id').registered = true) at hreg
      change net.next ≤ ((net.timerSetFunc id func).timers id').start
      rw [timerSetFunc_registered] at hreg
      rw [timerSetFunc_start]
      exact htold.first id' hreg
    . rintro ⟨id', hreg⟩
      change (((net.timerSetFunc id func).timers id').registered = true) at hreg
      rw [timerSetFunc_registered] at hreg
      obtain ⟨⟨first, hfirst, hnext⟩, hlast⟩ := htold.exact ⟨id', hreg⟩
      refine ⟨⟨first, ?_, ?_⟩, hlast⟩
      . exact timerSetFunc_registered.trans hfirst
      . exact timerSetFunc_start.trans hnext
  | start id start interval => exact hstart id start interval
  | stop id => exact hstop id
  | timeout id timeout =>
    unfold CanNet.apply CanNet.timerTimeout
    dsimp only
    split
    . exact hstop id
    . exact hstart id _ _

/-- One round of the loop: no timer is due, or the first one triggers. -/
theorem setTimeLoop_cases {func : TimerFunc ι σ} {fuel : Nat} {st : σ} {pass : Pass ι σ}
    (hpass : net.setTimeLoop func (fuel + 1) st = some pass)
    : (pass = ⟨st, net, [], false⟩
        ∧ ∀ root, net.heap.root = some root → net.time < (net.timers root.id).start)
      ∨ ∃ root rest, net.heap.root = some root ∧ (net.timers root.id).start ≤ net.time
        ∧ setTimeLoop func fuel (net.trigger func st root.id).1 (net.trigger func st root.id).2.1
          = some rest
        ∧ pass.st = rest.st ∧ pass.net = rest.net
        ∧ pass.fired = (root.id, (net.timers root.id).start) :: rest.fired := by
  rw [setTimeLoop] at hpass
  cases hroot : net.heap.root with
  | none =>
    rw [hroot] at hpass
    exact .inl ⟨(Option.some.inj hpass).symm, fun _ h => by cases h⟩
  | some root =>
    rw [hroot] at hpass
    dsimp only at hpass
    split at hpass
    next hlater =>
      refine .inl ⟨(Option.some.inj hpass).symm, ?_⟩
      intro root' hroot'
      cases hroot'
      exact (timespecCmp_pos_iff _ _).1 hlater
    next hdue =>
      obtain ⟨rest, hrest, rfl⟩ := Option.map_eq_some_iff.1 hpass
      have hle := not_lt.1 fun hlt => hdue ((timespecCmp_pos_iff _ _).2 hlt)
      exact .inr ⟨root, rest, rfl, hle, hrest, rfl, rfl, rfl⟩

/-- What the loop of `can_net_set_time` leaves behind, and what it has done. -/
theorem setTimeLoop_ok {func : TimerFunc ι σ} {fuel : Nat} {st : σ} {pass : Pass ι σ} (h : net.Ok)
    (hpass : net.setTimeLoop func fuel st = some pass)
    : pass.net.Ok
      ∧ (∀ id, (pass.net.timers id).registered = true → net.time < (pass.net.timers id).start)
      ∧ ∀ e ∈ pass.fired, e.2 ≤ net.time := by
  induction fuel generalizing st net pass with
  | zero => cases hpass
  | succ fuel ih =>
    obtain ⟨rfl, hlater⟩ | ⟨root, rest, hroot, hdue, hrest, -, hnet, hfired⟩ := setTimeLoop_cases hpass
    . refine ⟨h, ?_, fun e he => by cases he⟩
      intro id hreg
      cases hroot : net.heap.root with
      | none => exact absurd hreg (h.not_registered hroot id)
      | some root => exact (hlater root hroot).trans_le ((h.first hroot).2 id hreg)
    . obtain ⟨hok, hlater, hle⟩ := ih (h.trigger (h.first hroot).1 func st) hrest
      rw [trigger_time] at hlater hle
      rw [hnet, hfired]
      refine ⟨hok, hlater, ?_⟩
      intro e he
      rcases List.mem_cons.1 he with rfl | he
      . exact hdue
      . exact hle e he

theorem setTime_ok {func : TimerFunc ι σ} {fuel : Nat} {st : σ} {tp : TimeSpec} {pass : Pass ι σ}
    (h : net.Ok) (hpass : net.setTime func fuel st tp = some pass)
    : pass.net.Ok ∧ pass.net.Told
      ∧ (∀ id, (pass.net.timers id).registered = true → tp < (pass.net.timers id).start)
      ∧ ∀ e ∈ pass.fired, e.2 ≤ tp := by
  obtain ⟨rest, hrest, rfl⟩ := Option.map_eq_some_iff.1 hpass
  have hnow : { net with time := tp }.Ok := ⟨h.heap, h.nodup, h.mem_iff⟩
  obtain ⟨hok, hlater, hle⟩ := setTimeLoop_ok hnow hrest
  refine ⟨hok.setNext, hok.told, ?_, hle⟩
  dsimp only
  rw [setNext_timers]
  exact hlater

theorem Reaches.ok (h : net.Reaches) : net.Ok ∧ net.Told := by
  induction h with
  | init =>
    refine ⟨⟨⟨trivial, rfl⟩, Multiset.nodup_zero, ?_⟩, ?_, ?_⟩
    . intro id start
      refine ⟨fun hmem => absurd hmem (Multiset.notMem_zero _), fun hreg => ?_⟩
      exact absurd hreg.1 (by simp [CanNet.init])
    . intro id hreg
      cases hreg
    . rintro ⟨id, hreg⟩
      cases hreg
  | apply _ op ih => exact ⟨ih.1.apply op, ih.2.apply ih.1 op⟩
  | setTime _ func fuel st tp pass hpass ih =>
    obtain ⟨hok, htold, -, -⟩ := setTime_ok ih.1 hpass
    exact ⟨hok, htold⟩

/--
However timers are started, stopped and triggered, also by their own functions: the last deadline that
the network has handed on is the first of all the timers that are registered.
-/
theorem deadline_told (h : net.Reaches) (hreg : (net.timers id).registered = true)
    : net.reported.getLast? = some net.next ∧ net.next ≤ (net.timers id).start
      ∧ ∃ first, (net.timers first).registered = true ∧ (net.timers first).start = net.next := by
  obtain ⟨-, htold⟩ := h.ok
  obtain ⟨hfirst, hlast⟩ := htold.exact ⟨id, hreg⟩
  exact ⟨hlast, htold.first id hreg, hfirst⟩

/-- The second timer is stopped, so that the first one is the next. -/
theorem deadline_told_stopped : ∃ net : CanNet Nat,
    net.reported = [⟨5, 0⟩, ⟨3, 0⟩, ⟨5, 0⟩] ∧ net.reported.getLast? = some net.next := by
  have h : (init Nat).Reaches := .init
  have hstarted := (h.apply (.start 1 (some ⟨5, 0⟩) none)).apply (.start 2 (some ⟨3, 0⟩) none)
  have hstopped := hstarted.apply (.stop 2)
  exact ⟨_, rfl, (@deadline_told Nat _ _ 1 hstopped (by decide)).1⟩

end CanNet

end LelyRtt.Clock
