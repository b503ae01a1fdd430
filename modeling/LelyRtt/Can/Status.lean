import Mathlib.Data.List.Basic
import Mathlib.Tactic.Common

/-!
This module contains how the status samples of the CAN controller become errors that Lely is told,
over any sequence of samples and answers of the error queue of Lely.
-/

namespace LelyRtt.Status

/-- The fields of a `struct rt_can_status` that the mapper reads. -/
@[ext]
structure RtCanStatus where
  rcverrcnt : BitVec 32 := 0
  snderrcnt : BitVec 32 := 0
  bitpaderrcnt : BitVec 32 := 0
  formaterrcnt : BitVec 32 := 0
  ackerrcnt : BitVec 32 := 0
  biterrcnt : BitVec 32 := 0
  crcerrcnt : BitVec 32 := 0
  deriving DecidableEq, Repr

/-- The states of `enum can_state` that the mapper uses. -/
inductive CanState where
  | active
  | passive
  | busoff
  deriving DecidableEq, Repr

/-- The flags of `enum can_error` that the mapper sets. -/
@[ext]
structure CanError where
  bit : Bool := false
  stuff : Bool := false
  crc : Bool := false
  form : Bool := false
  ack : Bool := false
  deriving DecidableEq, Repr

/-- `struct can_err` with `CAN_ERR_INIT` as its defaults. -/
structure CanErr where
  state : CanState := .active
  error : CanError := {}
  deriving DecidableEq, Repr

/-- `lely_rtt_can_status_mapper_t` with its argument. -/
abbrev StatusMapper : Type := RtCanStatus → Option RtCanStatus → CanErr → Bool × CanErr

/-- The state that the mapper derives from the error counts. -/
def RtCanStatus.state (status : RtCanStatus) : CanState :=
  if status.snderrcnt ≥ 256 then
    .busoff
  else if status.snderrcnt ≥ 128 ∨ status.rcverrcnt ≥ 128 then
    .passive
  else
    .active

/-- `lely_rtt_can_default_status_mapper` -/
def defaultStatusMapper : StatusMapper := fun status previous err =>
  let err := { err with state := status.state }
  match previous with
  | none => (err.state ≠ .active, err)
  | some previous =>
    let changed : Bool := previous.state ≠ err.state
    let error : CanError :=
      {
        bit := err.error.bit || status.biterrcnt != previous.biterrcnt
        stuff := err.error.stuff || status.bitpaderrcnt != previous.bitpaderrcnt
        crc := err.error.crc || status.crcerrcnt != previous.crcerrcnt
        form := err.error.form || status.formaterrcnt != previous.formaterrcnt
        ack := err.error.ack || status.ackerrcnt != previous.ackerrcnt
      }
    (changed || error ≠ {}, { err with error := error })

/-- The fields of the runtime that the status has to do with. -/
structure Runtime where
  canDev : Bool
  canChan : Bool
  statusMapper : Option StatusMapper
  lastCanStatus : RtCanStatus
  statusValid : Bool

/-- What `RT_CAN_CMD_GET_STATUS` yields, and if the queue of Lely takes the error of the sample. -/
structure Sample where
  status : Option RtCanStatus
  accepts : Bool
  deriving DecidableEq, Repr

/-- An error that Lely was offered. -/
structure Offer where
  err : CanErr
  accepted : Bool
  deriving DecidableEq, Repr

/-- The sample that the mapper compares with. -/
def Runtime.previous (rt : Runtime) : Option RtCanStatus :=
  if rt.statusValid then some rt.lastCanStatus else none

def Runtime.retain (rt : Runtime) (status : RtCanStatus) : Runtime :=
  { rt with lastCanStatus := status, statusValid := true }

/-- `lely_rtt_can_process_status` -/
def processStatus (rt : Runtime) (sample : Sample) : Runtime × Option Offer :=
  if !rt.canDev || !rt.canChan then
    (rt, none)
  else
    match sample.status with
    | none => (rt, none)
    | some status =>
      let (changed, err) := (rt.statusMapper.getD defaultStatusMapper) status rt.previous {}
      if !changed then
        (rt.retain status, none)
      else if sample.accepts then
        (rt.retain status, some ⟨err, true⟩)
      else
        -- the old sample is kept, so that the next one offers the transition again
        (rt, some ⟨err, false⟩)

/-- The runtime after a sequence of samples, with the errors that Lely has taken. -/
structure Run where
  rt : Runtime
  accepted : List CanErr

def Run.step (r : Run) (sample : Sample) : Run :=
  let (rt, offer) := processStatus r.rt sample
  ⟨rt, r.accepted ++ ((offer.filter (·.accepted)).map (·.err)).toList⟩

def Run.after (rt : Runtime) (samples : List Sample) : Run := samples.foldl Run.step ⟨rt, []⟩

/-- The bus state that Lely was last told. -/
def Run.told (r : Run) : CanState := (r.accepted.getLast?.map (·.state)).getD .active

/-- The error that Lely is offered at a sample. -/
def Run.offer (r : Run) (sample : Sample) : Option Offer := (processStatus r.rt sample).2

/-- The five error counters. -/
inductive Counter where
  | bit
  | stuff
  | crc
  | form
  | ack
  deriving DecidableEq, Repr

def Counter.count (c : Counter) (status : RtCanStatus) : BitVec 32 :=
  match c with
  | .bit => status.biterrcnt
  | .stuff => status.bitpaderrcnt
  | .crc => status.crcerrcnt
  | .form => status.formaterrcnt
  | .ack => status.ackerrcnt

def Counter.flag (c : Counter) (error : CanError) : Bool :=
  match c with
  | .bit => error.bit
  | .stuff => error.stuff
  | .crc => error.crc
  | .form => error.form
  | .ack => error.ack

section

variable {rt : Runtime} {status : RtCanStatus} {sample : Sample}

/-- The state of the last sample that was retained. -/
def Runtime.retainedState (rt : Runtime) : CanState := (rt.previous.map (·.state)).getD .active

@[simp]
theorem previous_retain : (rt.retain status).previous = some status := rfl

theorem CanError.ne_empty {error : CanError} (c : Counter) (h : c.flag error = true) : error ≠ {} := by
  rintro rfl
  cases c <;> simp [Counter.flag] at h

theorem mapper_state (status : RtCanStatus) (previous : Option RtCanStatus)
    : (defaultStatusMapper status previous {}).2.state = status.state := by
  cases previous <;> rfl

/-- A transition is always reported. -/
theorem mapper_changed {previous : Option RtCanStatus}
    (h : status.state ≠ (previous.map (·.state)).getD .active)
    : (defaultStatusMapper status previous {}).1 = true := by
  cases previous with
  | none => simpa [defaultStatusMapper] using h
  | some previous =>
    have hne : previous.state ≠ status.state := fun heq => h (by simp [heq])
    simp [defaultStatusMapper, hne]

/-- What is not reported is no transition. -/
theorem mapper_unchanged {previous : Option RtCanStatus}
    (h : (defaultStatusMapper status previous {}).1 = false)
    : status.state = (previous.map (·.state)).getD .active := by
  by_contra hne
  rw [mapper_changed hne] at h
  cases h

/-- A counter that differs is reported under its flag. -/
theorem mapper_counter {previous : RtCanStatus} {c : Counter} (h : c.count status ≠ c.count previous)
    : (defaultStatusMapper status (some previous) {}).1 = true
      ∧ c.flag (defaultStatusMapper status (some previous) {}).2.error = true := by
  have hflag : c.flag (defaultStatusMapper status (some previous) {}).2.error = true := by
    cases c <;> simpa [defaultStatusMapper, Counter.flag, Counter.count] using h
  refine ⟨?_, hflag⟩
  have hne := CanError.ne_empty c hflag
  simp only [defaultStatusMapper] at hne ⊢
  rw [Bool.or_eq_true, decide_eq_true_eq, decide_eq_true_eq]
  exact .inr hne

/-- The runtime has a device and a channel. -/
def Runtime.on (rt : Runtime) : Bool := rt.canDev && rt.canChan

/-- What a sample does to the runtime and what is offered, with the default mapper. -/
inductive Processed (rt : Runtime) (sample : Sample) : Runtime → Option Offer → Prop
  | skipped : (rt.on → sample.status = none) → Processed rt sample rt none
  | unchanged (status : RtCanStatus) : rt.on → sample.status = some status →
      (defaultStatusMapper status rt.previous {}).1 = false →
      Processed rt sample (rt.retain status) none
  | accepted (status : RtCanStatus) : rt.on → sample.status = some status →
      Processed rt sample (rt.retain status)
        (some ⟨(defaultStatusMapper status rt.previous {}).2, true⟩)
  | rejected (status : RtCanStatus) : rt.on → sample.status = some status →
      Processed rt sample rt (some ⟨(defaultStatusMapper status rt.previous {}).2, false⟩)

theorem processStatus_processed (hmapper : rt.statusMapper = none) (sample : Sample)
    : Processed rt sample (processStatus rt sample).1 (processStatus rt sample).2 := by
  unfold processStatus
  split
  next hoff =>
    refine .skipped fun hon => ?_
    simp only [Runtime.on, Bool.and_eq_true] at hon
    simp [hon] at hoff
  next hon =>
    have hon : rt.on := by simpa [Runtime.on] using hon
    cases hstatus : sample.status with
    | none => exact .skipped fun _ => hstatus
    | some status =>
      rw [hmapper, Option.getD_none]
      dsimp only
      split
      next hchanged => exact .unchanged status hon hstatus (by simpa using hchanged)
      next =>
        split
        next => exact .accepted status hon hstatus
        next => exact .rejected status hon hstatus

end

namespace Run

variable {r : Run} {sample : Sample} {samples : List Sample}

/-- The default mapper is used, and Lely was told the state of the sample that is retained. -/
structure Tracks (r : Run) : Prop where
  mapper : r.rt.statusMapper = none
  told : r.told = r.rt.retainedState

theorem told_step_none (hoffer : r.offer sample = none) : (r.step sample).told = r.told := by
  simp only [offer] at hoffer
  simp [step, told, hoffer]

theorem told_step_some {err : CanErr} {accepted : Bool}
    (hoffer : r.offer sample = some ⟨err, accepted⟩)
    : (r.step sample).told = if accepted then err.state else r.told := by
  simp only [offer] at hoffer
  cases accepted <;> simp [step, told, hoffer, Option.filter]

/-- A sample leaves the configuration and keeps what Lely was told in step with what is retained. -/
theorem Tracks.step (h : r.Tracks) (sample : Sample)
    : (r.step sample).Tracks ∧ (r.step sample).rt.on = r.rt.on := by
  have hprocessed := processStatus_processed h.mapper sample
  have hrt : (r.step sample).rt = (processStatus r.rt sample).1 := rfl
  generalize hrt' : (processStatus r.rt sample).1 = rt' at hprocessed hrt
  generalize hoffer : (processStatus r.rt sample).2 = offer at hprocessed
  cases hprocessed with
  | skipped =>
    refine ⟨⟨by rw [hrt, h.mapper], ?_⟩, by rw [hrt]⟩
    rw [told_step_none hoffer, hrt, h.told]
  | unchanged status _ _ hunchanged =>
    refine ⟨⟨by rw [hrt, Runtime.retain, h.mapper], ?_⟩, by rw [hrt]; rfl⟩
    rw [told_step_none hoffer, hrt, h.told]
    simpa [Runtime.retainedState] using (mapper_unchanged hunchanged).symm
  | accepted status =>
    refine ⟨⟨by rw [hrt, Runtime.retain, h.mapper], ?_⟩, by rw [hrt]; rfl⟩
    rw [told_step_some hoffer, hrt]
    simpa [Runtime.retainedState] using mapper_state status r.rt.previous
  | rejected status =>
    refine ⟨⟨by rw [hrt, h.mapper], ?_⟩, by rw [hrt]⟩
    rw [told_step_some hoffer, hrt, h.told]
    rfl

/-- The samples after some others. -/
def steps (r : Run) (samples : List Sample) : Run := samples.foldl step r

theorem Tracks.steps (h : r.Tracks) (samples : List Sample)
    : (r.steps samples).Tracks ∧ (r.steps samples).rt.on = r.rt.on := by
  induction samples generalizing r with
  | nil => exact ⟨h, rfl⟩
  | cons sample samples ih =>
    obtain ⟨hstep, hon⟩ := h.step sample
    obtain ⟨hsteps, hon'⟩ := ih hstep
    exact ⟨hsteps, hon'.trans hon⟩

theorem after_append (rt : Runtime) (samples more : List Sample)
    : after rt (samples ++ more) = (after rt samples).steps more :=
  List.foldl_append ..

theorem Tracks.start {rt : Runtime} (hmapper : rt.statusMapper = none)
    (hstart : rt.statusValid = false) : (after rt []).Tracks :=
  ⟨hmapper, by simp [after, Run.told, Runtime.retainedState, Runtime.previous, hstart]⟩

/-- A sample whose state is not what Lely was told is offered. -/
theorem Tracks.offered (h : r.Tracks) (hon : r.rt.on) {status : RtCanStatus}
    (hstatus : sample.status = some status) (hne : status.state ≠ r.told)
    : ∃ offer, r.offer sample = some offer ∧ offer.err.state = status.state := by
  have hprocessed := processStatus_processed h.mapper sample
  have hchanged := mapper_changed (h.told ▸ hne)
  generalize (processStatus r.rt sample).1 = rt' at hprocessed
  generalize hoffer : (processStatus r.rt sample).2 = offer at hprocessed
  cases hprocessed with
  | skipped hskip => simp [hskip hon] at hstatus
  | unchanged status' _ hstatus' hunchanged =>
    cases hstatus.symm.trans hstatus'
    rw [hchanged] at hunchanged
    cases hunchanged
  | accepted status' _ hstatus' | rejected status' _ hstatus' =>
    cases hstatus.symm.trans hstatus'
    exact ⟨_, hoffer, mapper_state ..⟩

/-- Samples of the state that Lely was told do not change what it was told. -/
theorem Tracks.told_steps (h : r.Tracks)
    (hsame : ∀ x ∈ samples, ∀ status, x.status = some status → status.state = r.told)
    : (r.steps samples).told = r.told := by
  induction samples generalizing r with
  | nil => rfl
  | cons sample samples ih =>
    have htold : (r.step sample).told = r.told := by
      have hprocessed := processStatus_processed h.mapper sample
      generalize (processStatus r.rt sample).1 = rt' at hprocessed
      generalize hoffer : (processStatus r.rt sample).2 = offer at hprocessed
      cases hprocessed with
      | skipped | unchanged => exact told_step_none hoffer
      | accepted status _ hstatus =>
        rw [told_step_some hoffer, if_pos rfl, mapper_state]
        exact hsame sample List.mem_cons_self status hstatus
      | rejected => exact told_step_some hoffer
    rw [← htold]
    apply ih (h.step sample).1
    rw [htold]
    exact fun x hx => hsame x (List.mem_cons_of_mem sample hx)

theorem accepted_step_length (r : Run) (sample : Sample)
    : r.accepted.length ≤ (r.step sample).accepted.length := by
  simp [step]

theorem accepted_steps_length (r : Run) (samples : List Sample)
    : r.accepted.length ≤ (r.steps samples).accepted.length := by
  induction samples generalizing r with
  | nil => exact Nat.le_refl _
  | cons sample samples ih => exact Nat.le_trans (accepted_step_length r sample) (ih _)

/-- While a counter differs and nothing is accepted, the retained sample stays. -/
theorem Tracks.rt_steps (h : r.Tracks) {retained : RtCanStatus} {c : Counter}
    (hretained : r.rt.previous = some retained)
    (hdiffers : ∀ x ∈ samples, ∀ status, x.status = some status → c.count status ≠ c.count retained)
    (hnone : (r.steps samples).accepted.length = r.accepted.length)
    : (r.steps samples).rt = r.rt := by
  induction samples generalizing r with
  | nil => rfl
  | cons sample samples ih =>
    have hle := accepted_step_length r sample
    have hle' := accepted_steps_length (r.step sample) samples
    have hsteps : (r.steps (sample :: samples)) = (r.step sample).steps samples := rfl
    rw [hsteps] at hnone ⊢
    have hrt : (r.step sample).rt = r.rt := by
      have hprocessed := processStatus_processed h.mapper sample
      have hrt : (r.step sample).rt = (processStatus r.rt sample).1 := rfl
      generalize (processStatus r.rt sample).1 = rt' at hprocessed hrt
      generalize hoffer : (processStatus r.rt sample).2 = offer at hprocessed
      cases hprocessed with
      | skipped | rejected => exact hrt
      | unchanged status _ hstatus hunchanged =>
        have hchanged := (mapper_counter (hdiffers sample List.mem_cons_self status hstatus)).1
        rw [hretained, hchanged] at hunchanged
        cases hunchanged
      | accepted =>
        have hgrows : (r.step sample).accepted.length = r.accepted.length + 1 := by
          simp [Run.step, hoffer]
        omega
    rw [← hrt]
    exact ih (h.step sample).1 (by rw [hrt, hretained])
      (fun x hx => hdiffers x (List.mem_cons_of_mem sample hx)) (by omega)

/-- An error that is accepted while a counter differs has its flag. -/
theorem Tracks.flagged (h : r.Tracks) {retained : RtCanStatus} {c : Counter} {err : CanErr}
    (hretained : r.rt.previous = some retained)
    (hdiffers : ∀ status, sample.status = some status → c.count status ≠ c.count retained)
    (haccepted : r.offer sample = some ⟨err, true⟩) : c.flag err.error = true := by
  have hprocessed := processStatus_processed h.mapper sample
  generalize (processStatus r.rt sample).1 = rt' at hprocessed
  rw [offer] at haccepted
  rw [haccepted] at hprocessed
  cases hprocessed with
  | accepted status _ hstatus =>
    rw [hretained]
    exact (mapper_counter (hdiffers status hstatus)).2

end Run

/--
CAN status tracking: Lely was last told the state of the sample that is retained, a transition that
was rejected is offered again, and a counter that moved away from the retained sample is reported with
the next error that Lely takes, unless it came back.
-/
theorem status_tracked {rt : Runtime} (hmapper : rt.statusMapper = none)
    (hstart : rt.statusValid = false) (samples : List Sample)
    : (Run.after rt samples).told
        = (if (Run.after rt samples).rt.statusValid
            then (Run.after rt samples).rt.lastCanStatus.state else .active)
      ∧ (∀ sample err, (Run.after rt samples).offer sample = some ⟨err, false⟩ →
          err.state ≠ (Run.after rt samples).told →
          ∀ between next status,
            (∀ x ∈ between, ∀ s, x.status = some s → s.state = (Run.after rt samples).told) →
            next.status = some status → status.state ≠ (Run.after rt samples).told →
            ∃ offer, (Run.after rt (samples ++ sample :: between)).offer next = some offer
              ∧ offer.err.state = status.state)
      ∧ ∀ retained, (Run.after rt samples).rt.previous = some retained →
          ∀ rejected next err,
            (Run.after rt (samples ++ rejected)).accepted = (Run.after rt samples).accepted →
            (Run.after rt (samples ++ rejected)).offer next = some ⟨err, true⟩ →
            ∀ c : Counter,
              (∀ x ∈ rejected ++ [next], ∀ s, x.status = some s → c.count s ≠ c.count retained) →
              c.flag err.error = true := by
  have htracks := ((Run.Tracks.start hmapper hstart).steps samples).1
  change (Run.after rt samples).Tracks at htracks
  generalize hr : Run.after rt samples = r at htracks ⊢
  refine ⟨?_, ?_, ?_⟩
  . rw [htracks.told, Runtime.retainedState, Runtime.previous]
    cases r.rt.statusValid <;> rfl
  . intro sample err hoffer _ between next status hbetween hstatus hne
    have hon : r.rt.on := by
      have hprocessed := processStatus_processed htracks.mapper sample
      rw [Run.offer] at hoffer
      rw [hoffer] at hprocessed
      generalize (processStatus r.rt sample).1 = rt' at hprocessed
      cases hprocessed with
      | rejected _ hon => exact hon
    obtain ⟨hstep, hon'⟩ := htracks.step sample
    have htold : (r.step sample).told = r.told := Run.told_step_some hoffer
    obtain ⟨hsteps, hon''⟩ := hstep.steps between
    rw [Run.after_append, hr]
    apply hsteps.offered (by rw [hon'', hon', hon]) hstatus
    rw [hstep.told_steps (by rw [htold]; exact hbetween), htold]
    exact hne
  . intro retained hretained rejected next err hnone haccepted c hdiffers
    rw [Run.after_append, hr] at hnone haccepted
    have hrt := htracks.rt_steps hretained
      (fun x hx => hdiffers x (List.mem_append_left _ hx)) (by rw [hnone])
    exact (htracks.steps rejected).1.flagged (by rw [hrt, hretained])
      (hdiffers next (List.mem_append_right _ List.mem_cons_self)) haccepted

/-- A device that reports error passive twice, where Lely refuses the first report. -/
theorem status_tracked_retry
    : ∃ offer, (Run.after ⟨true, true, none, {}, false⟩
        ([] ++ [⟨some { snderrcnt := 128 }, false⟩])).offer ⟨some { snderrcnt := 130 }, true⟩
        = some offer
      ∧ offer.err.state = .passive :=
  (status_tracked rfl rfl []).2.1 ⟨some { snderrcnt := 128 }, false⟩ ⟨.passive, {}⟩ (by decide)
    (by decide) [] ⟨some { snderrcnt := 130 }, true⟩ { snderrcnt := 130 } (by simp) rfl (by decide)

end LelyRtt.Status
