import LelyRtt.Basic
import Mathlib.Data.List.Basic
import Mathlib.Logic.Function.Basic

/-!
This module contains the change of the transmission type of a PDO, with the restart of its service
and the rollback, over any number of calls.
-/

namespace LelyRtt.Transmission

/-- `enum lely_rtt_pdo_direction` -/
inductive Direction where
  | rpdo
  | tpdo
  deriving DecidableEq, Repr

/-- `CO_NUM_PDOS` -/
def numPdos : Nat := 512

/-- A PDO service of Lely, with the transmission type that it has loaded. -/
structure Service where
  stopped : Bool
  trans : Nat
  deriving DecidableEq, Repr

/--
A PDO: the value of sub-index 2 of its communication parameters, if there is one with 8 bits, and
the service, if NMT has created it.
-/
structure Pdo where
  od : Option Nat
  service : Option Service
  deriving DecidableEq, Repr

/-- The local device. `bound` is the presence of `master_nmt` and `master_dev`. -/
structure Device where
  bound : Bool
  sync1005 : Bool
  pdo : Direction → Nat → Pdo

/-- What `co_rpdo_start` or `co_tpdo_start` does with a service that is stopped. -/
inductive Start where
  | ok
  | failed (stopped : Bool)
  deriving DecidableEq, Repr

/-- An error with which a request does not reach the owner. -/
abbrev SubmitError : Type := { err : RtErr // err ≠ .ok }

/-- How the calls of Lely and of the command queue turn out during a call. -/
structure Outcomes where
  submit : Option SubmitError
  download : Bool
  start : Start
  restore : Bool
  restart : Start

/-- `lely_rtt_master_pdo_transmission_supported` -/
def transmissionSupported (type : Nat) : Bool := type ≤ 0xf0 ∨ type = 0xfe ∨ type = 0xff

/-- `lely_rtt_master_pdo_service_stopped` -/
def serviceStopped (p : Pdo) : Bool := p.service.any (·.stopped)

/-- `co_rpdo_stop` and `co_tpdo_stop` -/
def stop (s : Service) : Service := { s with stopped := true }

/-- `co_rpdo_start` and `co_tpdo_start`, which load the type `od`. -/
def start (od : Nat) (o : Start) (s : Service) : Bool × Service :=
  if !s.stopped then
    (true, s)
  else
    match o with
    | .ok => (true, ⟨false, od⟩)
    | .failed stopped => (false, ⟨stopped, od⟩)

/-- `co_sub_dn_ind_val` that is accepted, which a running service takes over. -/
def download (type : Nat) (p : Pdo) : Pdo where
  od := some type
  service := p.service.map fun s => if s.stopped then s else { s with trans := type }

/-- `lely_rtt_master_pdo_restart_active` after a download of `type`. -/
def restartActive (o : Outcomes) (type typeOld : Nat) (p : Pdo) : RtErr × Pdo :=
  match p.service with
  | none => (.ok, p)
  | some s =>
    if s.stopped then
      (.ok, p)
    else
      match start type o.start (stop s) with
      | (true, s) => (.ok, { p with service := some s })
      | (false, s) =>
        let s := if !s.stopped then stop s else s
        if !o.restore then
          (.error, { p with service := some s })
        else
          let (_, s) := start typeOld o.restart s
          (.error, ⟨some typeOld, some s⟩)

/-- `lely_rtt_master_pdo_transmission_owner` that writes. -/
def transmissionOwner (dev : Device) (direction : Direction) (number type : Nat) (o : Outcomes)
    : RtErr × Pdo :=
  let p := dev.pdo direction number
  if !dev.bound then
    (.busy, p)
  else
    match p.od with
    | none => (.error, p)
    | some typeOld =>
      if !transmissionSupported type then
        (.inval, p)
      else if type ≤ 0xf0 ∧ !dev.sync1005 then
        (.nosys, p)
      else if serviceStopped p then
        (.busy, p)
      else if type = typeOld then
        (.ok, p)
      else if !o.download then
        (.error, p)
      else if typeOld ≤ 0xf0 ∨ type ≤ 0xf0 then
        restartActive o type typeOld (download type p)
      else
        (.ok, download type p)

/-- Replace one PDO. -/
def Device.set (dev : Device) (direction : Direction) (number : Nat) (p : Pdo) : Device :=
  { dev with pdo := fun d n => if d = direction ∧ n = number then p else dev.pdo d n }

/-- `lely_rtt_runtime_pdo_set_transmission` -/
def setTransmission (dev : Device) (direction : Direction) (number type : Nat) (o : Outcomes)
    : RtErr × Device :=
  if number = 0 ∨ number > numPdos ∨ !transmissionSupported type then
    (.inval, dev)
  else
    match o.submit with
    | some err => (err, dev)
    | none =>
      let (err, p) := transmissionOwner dev direction number type o
      (err, dev.set direction number p)

/--
A call, or NMT that destroys the service of a PDO and creates it again, if `created`, which starts
it with the current type, if `started`.
-/
inductive Event where
  | set (direction : Direction) (number type : Nat) (o : Outcomes)
  | nmt (direction : Direction) (number : Nat) (created started : Bool)

def step (dev : Device) : Event → Device
  | .set direction number type o => (setTransmission dev direction number type o).2
  | .nmt direction number created started =>
    let p := dev.pdo direction number
    dev.set direction number
      ⟨p.od, if created then some ⟨!started, p.od.getD 0⟩ else none⟩

def run (dev : Device) (es : List Event) : Device := es.foldl step dev

/-- A service that runs does so in the type of the object dictionary. -/
def Pdo.Consistent (p : Pdo) : Prop :=
  ∀ s, p.service = some s → s.stopped = false → p.od.getD 0 = s.trans

/-- Nothing has a service yet. -/
def Device.Initial (dev : Device) : Prop := ∀ d n, (dev.pdo d n).service = none

/-- The arguments of a call are valid for the object dictionary. -/
structure Valid (dev : Device) (direction : Direction) (number type : Nat) : Prop where
  number_pos : number ≠ 0
  number_le : number ≤ numPdos
  supported : transmissionSupported type = true
  sub : (dev.pdo direction number).od.isSome
  sync : type ≤ 0xf0 → dev.sync1005 = true

/-- NMT recreates the service of the PDO. -/
def Event.Recreates (direction : Direction) (number : Nat) : Event → Prop
  | .set .. => False
  | .nmt d n _ _ => d = direction ∧ n = number

/-- The PDO is set to `type`. -/
structure Pdo.SetTo (p : Pdo) (type : Nat) : Prop where
  od : p.od = some type
  service : ∀ s, p.service = some s → s.stopped = false ∧ s.trans = type

/-- The PDO keeps the type `old`, and its service runs in that type or is stopped. -/
structure Pdo.Kept (p : Pdo) (old : Option Nat) : Prop where
  od : p.od = old
  service : ∀ s, p.service = some s → s.stopped = true ∨ s.trans = old.getD 0

section

variable {o : Outcomes} {type typeOld : Nat} {p : Pdo}

/-- How the restart of a service that runs ends. -/
theorem restartActive_cases {s : Service} (hs : p.service = some s) (hrun : s.stopped = false)
    : restartActive o type typeOld p = (.ok, { p with service := some ⟨false, type⟩ })
      ∨ o.restore = false
        ∧ restartActive o type typeOld p = (.error, { p with service := some ⟨true, type⟩ })
      ∨ o.restore = true ∧ ∃ stopped,
        restartActive o type typeOld p = (.error, ⟨some typeOld, some ⟨stopped, typeOld⟩⟩) := by
  cases hstart : o.start with
  | ok =>
    left
    simp [restartActive, hs, hrun, hstart, start, stop]
  | failed stopped =>
    right
    cases hrestore : o.restore with
    | false =>
      left
      cases stopped <;> simp [restartActive, hs, hrun, hstart, hrestore, start, stop]
    | true =>
      right
      refine ⟨rfl, ?_⟩
      cases hrestart : o.restart with
      | ok =>
        refine ⟨false, ?_⟩
        cases stopped <;>
          simp [restartActive, hs, hrun, hstart, hrestore, hrestart, start, stop]
      | failed stopped' =>
        refine ⟨stopped', ?_⟩
        cases stopped <;>
          simp [restartActive, hs, hrun, hstart, hrestore, hrestart, start, stop]

/-- An accepted download sets the type, also of a service that runs. -/
theorem download_setTo (hrun : serviceStopped p = false) : (download type p).SetTo type := by
  refine ⟨rfl, fun s hs => ?_⟩
  obtain ⟨s', hs', rfl⟩ := Option.map_eq_some_iff.mp hs
  have hstopped : s'.stopped = false := by
    simpa [serviceStopped, hs'] using hrun
  simp [hstopped]

/-- What a call does to the type and to the service of its PDO. -/
structure Effect (o : Outcomes) (type : Nat) (old : Pdo) (err : RtErr) (new : Pdo) : Prop where
  ok : err = .ok → new.SetTo type
  error : err ≠ .ok → o.restore = true → new.Kept old.od
  consistent : new.Consistent
  present : new.service.isSome = old.service.isSome

theorem Pdo.SetTo.consistent (h : p.SetTo type) : p.Consistent := fun s hs _ => by
  rw [h.od, (h.service s hs).2]
  rfl

/-- A call that fails before it changes anything. -/
theorem effect_unchanged {err : RtErr} (hp : p.Consistent) (herr : err ≠ .ok)
    : Effect o type p err p where
  ok := fun h => absurd h herr
  error := fun _ _ => ⟨rfl, fun s hs => by
    cases hstopped : s.stopped with
    | true => exact .inl rfl
    | false => exact .inr (hp s hs hstopped).symm⟩
  consistent := hp
  present := rfl

theorem restartActive_effect (hp : p.od = some typeOld) (hrun : serviceStopped p = false)
    : Effect o type p (restartActive o type typeOld (download type p)).1
        (restartActive o type typeOld (download type p)).2 := by
  have hset : (download type p).SetTo type := download_setTo hrun
  cases hs : p.service with
  | none =>
    have hnone : (download type p).service = none := by simp [download, hs]
    have heq : restartActive o type typeOld (download type p) = (.ok, download type p) := by
      simp [restartActive, hnone]
    rw [heq]
    exact ⟨fun _ => hset, fun h => absurd rfl h, hset.consistent, by rw [hnone, hs]⟩
  | some s =>
    have hstopped : s.stopped = false := by
      simpa [serviceStopped, hs] using hrun
    have hs' : (download type p).service = some { s with trans := type } := by
      simp [download, hs, hstopped]
    rcases @restartActive_cases o type typeOld _ _ hs' hstopped with
      h | ⟨hrestore, h⟩ | ⟨-, stopped, h⟩
    . rw [h]
      have hnew : Pdo.SetTo ⟨some type, some ⟨false, type⟩⟩ type :=
        ⟨rfl, fun s hs => by cases hs; exact ⟨rfl, rfl⟩⟩
      exact ⟨fun _ => hnew, fun h => absurd rfl h, hnew.consistent, by rw [hs]; rfl⟩
    . rw [h]
      refine ⟨(fun h => nomatch h), fun _ h => absurd (hrestore.symm.trans h) (by decide),
        fun s hs hrun => ?_, by rw [hs]; rfl⟩
      cases hs
      cases hrun
    . rw [h]
      refine ⟨(fun h => nomatch h), fun _ _ => ⟨hp.symm, fun s hs => ?_⟩, fun s hs _ => ?_,
        by rw [hs]; rfl⟩
      . cases hs
        exact .inr (by rw [hp]; rfl)
      . cases hs
        rfl

end

theorem transmissionOwner_effect {dev : Device} {direction : Direction} {number type : Nat}
    {o : Outcomes} (hp : (dev.pdo direction number).Consistent)
    : Effect o type (dev.pdo direction number) (transmissionOwner dev direction number type o).1
        (transmissionOwner dev direction number type o).2 := by
  unfold transmissionOwner
  generalize dev.pdo direction number = p at *
  cases hbound : dev.bound with
  | false =>
    simp only [Bool.not_false, if_true]
    exact effect_unchanged hp (fun h => nomatch h)
  | true =>
    simp only [Bool.not_true, Bool.false_eq_true, if_false]
    cases hod : p.od with
    | none => exact effect_unchanged hp (fun h => nomatch h)
    | some typeOld =>
      dsimp only
      split
      next => exact effect_unchanged hp (fun h => nomatch h)
      split
      next => exact effect_unchanged hp (fun h => nomatch h)
      split
      next => exact effect_unchanged hp (fun h => nomatch h)
      next hrun =>
        have hrun : serviceStopped p = false := by simpa using hrun
        split
        next heq =>
          subst heq
          refine ⟨fun _ => ⟨hod, fun s (hs : p.service = some s) => ?_⟩, fun h => absurd rfl h, hp, rfl⟩
          have hstopped : s.stopped = false := by
            simpa [serviceStopped, hs] using hrun
          have := hp s hs hstopped
          rw [hod] at this
          exact ⟨hstopped, this.symm⟩
        split
        next => exact effect_unchanged hp (fun h => nomatch h)
        split
        next => exact restartActive_effect hod hrun
        next =>
          have hset : (download type p).SetTo type := download_setTo hrun
          exact ⟨fun _ => hset, fun h => absurd rfl h, hset.consistent, by simp [download]⟩

section

variable {dev : Device}

@[simp]
theorem set_self (d : Direction) (n : Nat) (p : Pdo) : (dev.set d n p).pdo d n = p := by
  simp [Device.set]

theorem set_ne {d d' : Direction} {n n' : Nat} (h : ¬ (d' = d ∧ n' = n)) (p : Pdo)
    : (dev.set d n p).pdo d' n' = dev.pdo d' n' := by
  simp only [Device.set, if_neg h]

theorem setTransmission_effect {direction : Direction} {number type : Nat} {o : Outcomes}
    (hp : (dev.pdo direction number).Consistent)
    : Effect o type (dev.pdo direction number) (setTransmission dev direction number type o).1
        ((setTransmission dev direction number type o).2.pdo direction number) := by
  unfold setTransmission
  split
  next => exact effect_unchanged hp (fun h => nomatch h)
  split
  next err _ => exact effect_unchanged hp err.property
  next =>
    simp only [set_self]
    exact transmissionOwner_effect hp

/-- A call leaves the other PDOs as they are. -/
theorem setTransmission_ne {d direction : Direction} {n number type : Nat} {o : Outcomes}
    (h : ¬ (d = direction ∧ n = number))
    : (setTransmission dev direction number type o).2.pdo d n = dev.pdo d n := by
  unfold setTransmission
  split
  next => rfl
  split
  next => rfl
  next => exact set_ne h _

theorem setTransmission_env {direction : Direction} {number type : Nat} {o : Outcomes}
    : (setTransmission dev direction number type o).2.bound = dev.bound
      ∧ (setTransmission dev direction number type o).2.sync1005 = dev.sync1005 := by
  unfold setTransmission
  split
  next => exact ⟨rfl, rfl⟩
  split <;> exact ⟨rfl, rfl⟩

/-- Every PDO is consistent. -/
def Device.Consistent (dev : Device) : Prop := ∀ d n, (dev.pdo d n).Consistent

theorem Device.Consistent.step (h : dev.Consistent) (e : Event) : (step dev e).Consistent := by
  intro d n
  cases e with
  | set direction number type o =>
    by_cases heq : d = direction ∧ n = number
    . obtain ⟨rfl, rfl⟩ := heq
      exact (setTransmission_effect (h d n)).consistent
    . simp only [Transmission.step, setTransmission_ne heq]
      exact h d n
  | nmt direction number created started =>
    by_cases heq : d = direction ∧ n = number
    . obtain ⟨rfl, rfl⟩ := heq
      intro s hs _
      simp only [Transmission.step, set_self] at hs ⊢
      cases created with
      | false => cases hs
      | true =>
        cases hs
        rfl
    . simp only [Transmission.step, set_ne heq]
      exact h d n

theorem Device.Consistent.run (h : dev.Consistent) (es : List Event) : (run dev es).Consistent := by
  induction es generalizing dev with
  | nil => exact h
  | cons e es ih => exact ih (h.step e)

theorem Device.Initial.consistent (h : dev.Initial) : dev.Consistent := by
  intro d n s hs
  rw [h d n] at hs
  cases hs

/-- A call for a PDO whose service is stopped fails and changes nothing. -/
theorem setTransmission_stopped {d : Direction} {n type : Nat} {o : Outcomes} {s : Service}
    (hs : (dev.pdo d n).service = some s) (hstopped : s.stopped = true)
    : (setTransmission dev d n type o).1 ≠ .ok
      ∧ (setTransmission dev d n type o).2.pdo d n = dev.pdo d n
      ∧ (Valid dev d n type → dev.bound = true → o.submit = none →
        (setTransmission dev d n type o).1 = .busy) := by
  have hservice : serviceStopped (dev.pdo d n) = true := by
    simp [serviceStopped, hs, hstopped]
  unfold setTransmission
  split
  next hinval =>
    refine ⟨(fun h => nomatch h), rfl, fun hvalid => ?_⟩
    have := hvalid.number_pos
    have := hvalid.number_le
    simp [hvalid.supported] at hinval
    omega
  split
  next err hsubmit => exact ⟨err.property, rfl, fun _ _ h => nomatch hsubmit.symm.trans h⟩
  next =>
    simp only [set_self]
    unfold transmissionOwner
    cases hbound : dev.bound with
    | false => simp
    | true =>
      cases hod : (dev.pdo d n).od with
      | none =>
        simp only [Bool.not_true, Bool.false_eq_true, if_false, hod]
        refine ⟨(fun h => nomatch h), trivial, fun hvalid => ?_⟩
        have := hvalid.sub
        simp [hod] at this
      | some typeOld =>
        simp only [Bool.not_true, Bool.false_eq_true, if_false, hod, hservice, if_true]
        split
        next h => exact ⟨(fun h => nomatch h), rfl, fun hvalid => by simp [hvalid.supported] at h⟩
        split
        next h => exact ⟨(fun h => nomatch h), rfl, fun hvalid => by simp [hvalid.sync h.1] at h⟩
        next => exact ⟨(fun h => nomatch h), rfl, fun _ _ _ => rfl⟩

/-- A service that is stopped stays so until NMT recreates it. -/
theorem run_stopped {d : Direction} {n : Nat} {s : Service}
    (hs : (dev.pdo d n).service = some s) (hstopped : s.stopped = true) (es : List Event)
    (hes : ∀ e ∈ es, ¬ e.Recreates d n) : (run dev es).pdo d n = dev.pdo d n := by
  induction es generalizing dev with
  | nil => rfl
  | cons e es ih =>
    have hstep : (step dev e).pdo d n = dev.pdo d n := by
      cases e with
      | set direction number type o =>
        by_cases heq : d = direction ∧ n = number
        . obtain ⟨rfl, rfl⟩ := heq
          exact (setTransmission_stopped hs hstopped).2.1
        . exact setTransmission_ne heq
      | nmt direction number created started =>
        refine set_ne (fun heq => ?_) _
        exact hes _ (List.mem_cons_self ..) ⟨heq.1.symm, heq.2.symm⟩
    have := @ih (step dev e) (by rw [hstep, hs]) fun e he => hes e (List.mem_cons_of_mem _ he)
    exact this.trans hstep

end

/--
In any sequence of calls and recreations by NMT, a call that succeeds has set the PDO to the type, a
call that fails has kept the old type, and a PDO whose service is stopped refuses all calls until
NMT recreates it.
-/
theorem set_transmission_exact (dev : Device) (hinit : dev.Initial) (es : List Event)
    (d : Direction) (n type : Nat) (o : Outcomes)
    : ((setTransmission (run dev es) d n type o).1 = .ok →
        ((setTransmission (run dev es) d n type o).2.pdo d n).SetTo type)
      ∧ ((setTransmission (run dev es) d n type o).1 ≠ .ok → o.restore = true →
        ((setTransmission (run dev es) d n type o).2.pdo d n).Kept ((run dev es).pdo d n).od)
      ∧ ((setTransmission (run dev es) d n type o).2.pdo d n).service.isSome
        = ((run dev es).pdo d n).service.isSome
      ∧ (∀ d' n', ¬ (d' = d ∧ n' = n) →
        (setTransmission (run dev es) d n type o).2.pdo d' n' = (run dev es).pdo d' n')
      ∧ ∀ s, ((run dev es).pdo d n).service = some s → s.stopped = true → ∀ es',
        (∀ e ∈ es', ¬ e.Recreates d n) →
        (run dev (es ++ es')).pdo d n = (run dev es).pdo d n
        ∧ (setTransmission (run dev (es ++ es')) d n type o).1 ≠ .ok
        ∧ (setTransmission (run dev (es ++ es')) d n type o).2.pdo d n = (run dev es).pdo d n
        ∧ (Valid (run dev (es ++ es')) d n type → (run dev (es ++ es')).bound = true →
          o.submit = none → (setTransmission (run dev (es ++ es')) d n type o).1 = .busy) := by
  have heffect := @setTransmission_effect _ _ _ type o (hinit.consistent.run es d n)
  refine ⟨heffect.ok, heffect.error, heffect.present, fun d' n' h => setTransmission_ne h,
    fun s hs hstopped es' hes' => ?_⟩
  have hrun : run dev (es ++ es') = run (run dev es) es' := List.foldl_append ..
  have hkeep := run_stopped hs hstopped es' hes'
  rw [hrun]
  obtain ⟨herr, hsame, hbusy⟩ := @setTransmission_stopped _ _ _ type o _
    ((congrArg Pdo.service hkeep).trans hs) hstopped
  exact ⟨hkeep, herr, hsame.trans hkeep, hbusy⟩

/-- A TPDO whose restart and rollback fail refuses the same change afterwards. -/
theorem set_transmission_exact_stopped
    : let dev : Device := ⟨true, true, fun _ _ => ⟨some 254, none⟩⟩
      let failing : Outcomes := ⟨none, true, .failed true, true, .failed true⟩
      let es : List Event := [.nmt .tpdo 1 true true, .set .tpdo 1 1 failing]
      ((run dev es).pdo .tpdo 1).od = some 254
        ∧ (setTransmission (run dev es) .tpdo 1 1 ⟨none, true, .ok, true, .ok⟩).1 = .busy := by
  intro dev failing es
  obtain ⟨-, -, -, -, hstopped⟩ := set_transmission_exact dev (fun _ _ => rfl) es .tpdo 1 1
    ⟨none, true, .ok, true, .ok⟩
  have hvalid : Valid (run dev (es ++ [])) .tpdo 1 1 :=
    ⟨by decide, by decide, rfl, rfl, fun _ => rfl⟩
  exact ⟨rfl, (hstopped ⟨true, 254⟩ rfl rfl [] (by simp)).2.2.2 hvalid rfl rfl⟩

end LelyRtt.Transmission
