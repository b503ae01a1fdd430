import LelyRtt.Cfg.Sync

/-!
This module contains the proof that a synchronous request is completed exactly once, that its caller
returns with the result, and that the owner accesses it neither before the post nor after the return.
-/

namespace LelyRtt.Cfg

open Conc

namespace CallerPc

/-- The request has not been sent, or the post has failed. -/
def unsent : CallerPc → Bool
  | .idle => true
  | .posting pc => pc ≠ .event ∧ pc ≠ .release .ok
  | .finiRefs posted _ | .finiDetach posted _ | .returned posted _ => !posted
  | .waitDone | .waitReceive | .waitResult => false

/-- The caller has sent the request and has not seen it done. -/
def waiting : CallerPc → Bool
  | .posting pc => pc = .event ∨ pc = .release .ok
  | .waitDone | .waitReceive => true
  | _ => false

/-- The caller has seen the request done with the result, and waits for the owner to let go. -/
def awake (result : RtErr) : CallerPc → Bool
  | .waitResult => true
  | .finiRefs posted result' => posted ∧ result' = result
  | _ => false

/-- The caller is past its wait for the owner. -/
def gone (result : RtErr) : CallerPc → Bool
  | .finiDetach posted result' | .returned posted result' => posted ∧ result' = result
  | _ => false

/-- The caller has sent the request and keeps its storage. -/
def live : CallerPc → Bool
  | .posting pc => pc = .event ∨ pc = .release .ok
  | .waitDone | .waitReceive | .waitResult => true
  | .finiRefs posted _ => posted
  | .idle | .finiDetach _ _ | .returned _ _ => false

/-- The caller is in `lely_rtt_master_command_post`. -/
def posts : CallerPc → Bool
  | .posting _ => true
  | _ => false

/-- The weight of the caller in `command_refs`. -/
def weight : CallerPc → Int
  | .posting pc => if pc.counted then 1 else 0
  | _ => 0

/-- The caller has found the admission open after it raised `command_refs`. -/
def admitted : CallerPc → Bool
  | .posting pc => pc.admitted
  | _ => false

theorem weight_nonneg (pc : CallerPc) : 0 ≤ pc.weight := by
  cases pc with
  | posting pc => cases pc <;> simp [weight, PostPc.counted]
  | _ => simp [weight]

theorem weight_of_admitted {pc : CallerPc} (h : pc.admitted = true) : pc.weight = 1 := by
  cases pc with
  | posting pc => cases pc <;> simp_all [weight, admitted, PostPc.counted, PostPc.admitted]
  | _ => simp [admitted] at h

theorem not_sent {pc : CallerPc} (h : pc.unsent = true) (result : RtErr)
    : pc.waiting = false ∧ pc.awake result = false ∧ pc.gone result = false := by
  cases pc <;> simp_all [unsent, waiting, awake, gone]

theorem not_awake {pc : CallerPc} (h : pc.waiting = true) (result : RtErr)
    : pc.unsent = false ∧ pc.awake result = false ∧ pc.gone result = false := by
  cases pc with
  | posting pc =>
    obtain rfl | rfl : pc = .event ∨ pc = .release .ok := by simpa [waiting] using h
    all_goals simp [unsent, awake, gone]
  | _ => simp_all [unsent, waiting, awake, gone]

theorem live_of_waiting {pc : CallerPc} (h : pc.waiting = true) : pc.live = true := by
  cases pc <;> simp_all [waiting, live]

theorem live_of_awake {pc : CallerPc} {result : RtErr} (h : pc.awake result = true)
    : pc.live = true := by
  cases pc <;> simp_all [awake, live]

end CallerPc

/-- The request fits the place where it is. -/
def Place.Ok (caller : CallerPc) (sync : Sync) : Place → Prop
  | .unsent =>
    caller.unsent = true ∧ sync.done = false ∧ sync.completionRefs = 0
      ∧ (caller.posts = true → sync.initialized = true)
  | .queued | .active | .executed | .completing _ .load | .completing _ .storeResult =>
    caller.waiting = true ∧ sync.initialized = true ∧ sync.done = false ∧ sync.completionRefs = 0
  | .completing result .storeRefs =>
    caller.waiting = true ∧ sync.initialized = true ∧ sync.done = false ∧ sync.completionRefs = 0
      ∧ sync.result = result
  | .completing result .storeDone =>
    caller.waiting = true ∧ sync.initialized = true ∧ sync.done = false ∧ sync.completionRefs = 1
      ∧ sync.result = result
  | .completing result .send | .completing result .clearRefs =>
    (caller.waiting = true ∨ caller.awake result = true) ∧ sync.done = true
      ∧ sync.completionRefs = 1 ∧ sync.result = result
  | .completed result =>
    (caller.waiting = true ∨ caller.awake result = true ∨ caller.gone result = true)
      ∧ sync.done = true ∧ sync.completionRefs = 0 ∧ sync.result = result

namespace Place.Ok

variable {place : Place} {pc pc' : CallerPc} {sync sync' : Sync} {result : RtErr}

/-- A caller that has not sent its request. -/
theorem unsent (h : place.Ok pc sync) (hpc : pc.unsent = true)
    : place = .unsent ∧ sync.done = false ∧ sync.completionRefs = 0
      ∧ (pc.posts = true → sync.initialized = true) := by
  have hnot := fun result => (CallerPc.not_sent hpc result).2
  have hwaiting := (CallerPc.not_sent hpc .ok).1
  cases place with
  | unsent => exact ⟨rfl, h.2⟩
  | completing result p => cases p <;> simp [Ok, hnot, hwaiting] at h
  | queued | active | executed | completed => simp [Ok, hnot, hwaiting] at h

/-- A request that the owner has. -/
theorem live (h : place.Ok pc sync) (hunsent : place ≠ .unsent)
    (hcompleted : ∀ result, place ≠ .completed result) : pc.live = true := by
  cases place with
  | unsent => exact absurd rfl hunsent
  | completed result => exact absurd rfl (hcompleted result)
  | queued | active | executed => exact CallerPc.live_of_waiting h.1
  | completing result p =>
    cases p with
    | load | storeResult | storeRefs | storeDone => exact CallerPc.live_of_waiting h.1
    | send | clearRefs => exact h.1.elim CallerPc.live_of_waiting CallerPc.live_of_awake

/-- A step of a caller that has not sent its request. -/
theorem of_unsent (h : place.Ok pc sync) (hpc : pc.unsent = true) (hpc' : pc'.unsent = true)
    (hdone : sync'.done = sync.done) (hrefs : sync'.completionRefs = sync.completionRefs)
    (hposts : pc'.posts = true → pc.posts = true ∧ sync'.initialized = sync.initialized)
    : place.Ok pc' sync' := by
  obtain ⟨rfl, hfalse, hzero, hinit⟩ := h.unsent hpc
  refine ⟨hpc', hdone.trans hfalse, hrefs.trans hzero, ?_⟩
  intro hpc'
  obtain ⟨hpc, hsame⟩ := hposts hpc'
  exact hsame.trans (hinit hpc)

/-- A step of a caller that waits. -/
theorem of_waiting (h : place.Ok pc sync) (hpc : pc.waiting = true) (hpc' : pc'.waiting = true)
    (hdone : sync'.done = sync.done) (hrefs : sync'.completionRefs = sync.completionRefs)
    (hresult : sync'.result = sync.result) (hinit : sync'.initialized = sync.initialized)
    : place.Ok pc' sync' := by
  have hnot := fun result => CallerPc.not_awake hpc result
  cases place with
  | completing result p => cases p <;> simp_all [Ok]
  | unsent | queued | active | executed | completed => simp_all [Ok]

/-- A caller sees the request done. -/
theorem of_done (h : place.Ok pc sync) (hdone : sync.done = true) (hpc : pc.waiting = true)
    : place.Ok .waitResult sync := by
  have hnot := fun result => CallerPc.not_awake hpc result
  cases place with
  | completing result p => cases p <;> simp_all [Ok, CallerPc.awake]
  | unsent | queued | active | executed | completed => simp_all [Ok, CallerPc.awake]

/-- A caller reads the result. -/
theorem of_waitResult (h : place.Ok .waitResult sync) : place.Ok (.finiRefs true sync.result) sync := by
  cases place with
  | completing result p => cases p <;> simp_all [Ok, CallerPc.awake, CallerPc.waiting]
  | unsent | queued | active | executed | completed =>
    simp_all [Ok, CallerPc.awake, CallerPc.waiting, CallerPc.unsent]

/-- A caller finds that the owner has let go. -/
theorem of_finiRefs (h : place.Ok (.finiRefs true result) sync) (hzero : sync.completionRefs = 0)
    : place.Ok (.finiDetach true result) sync := by
  cases place with
  | completing result p => cases p <;> simp_all [Ok, CallerPc.awake, CallerPc.waiting]
  | unsent | queued | active | executed | completed =>
    simp_all [Ok, CallerPc.awake, CallerPc.waiting, CallerPc.unsent, CallerPc.gone]

/-- A caller returns. -/
theorem of_finiDetach (h : place.Ok (.finiDetach true result) sync)
    (hdone : sync'.done = sync.done) (hrefs : sync'.completionRefs = sync.completionRefs)
    (hresult : sync'.result = sync.result) : place.Ok (.returned true result) sync' := by
  cases place with
  | completing result p => cases p <;> simp_all [Ok, CallerPc.awake, CallerPc.waiting]
  | unsent | queued | active | executed | completed =>
    simp_all [Ok, CallerPc.awake, CallerPc.waiting, CallerPc.unsent, CallerPc.gone]

end Place.Ok

/-- The completion has taken effect with the result. -/
def Place.Logged (result : RtErr) (place : Place) : Prop :=
  place = .completing result .send ∨ place = .completing result .clearRefs ∨ place = .completed result

/-- The owner has taken the request from the queue. -/
def Place.Taken : Place → Prop
  | .unsent | .queued | .executed => False
  | .active | .completing _ _ | .completed _ => True

namespace Phase

/-- The owner has set `command_stop_latched`. -/
def latched : Phase → Bool
  | .latch again => again
  | .quiesce _ | .wait _ | .drain | .prepare | .deleteQueue | .destroy | .finished => true
  | _ => false

/-- The owner has seen `command_refs` at zero behind that. -/
def closed : Phase → Bool
  | .latch again | .quiesce again | .wait again => again
  | .drain | .prepare | .deleteQueue | .destroy | .finished => true
  | _ => false

/-- The owner has emptied the queue. -/
def drained : Phase → Bool
  | .prepare | .deleteQueue | .destroy | .finished => true
  | _ => false

end Phase

section

variable {ρ : Type} [DecidableEq ρ] {node : ρ → Nat} {isCfg : ρ → Bool} {s s' : System ρ} {r : ρ}

/-- Every request is where the history says. -/
structure System.Placed (node : ρ → Nat) (s : System ρ) : Prop where
  nodup : s.queue.Nodup
  queued : ∀ r, r ∈ s.queue ↔ s.place r = .queued
  active : ∀ r, s.cfg.cfgActive (node r) = some r ↔ s.place r = .active
  executing : ∀ r, s.executing = some r ↔ s.place r = .executed
  completing : ∀ r result pc,
    s.completing = some (r, result, pc) ↔ s.place r = .completing result pc
  taken : ∀ r ∈ s.cfg.dispatched, (s.place r).Taken
  logged : ∀ r result, (r, result) ∈ s.log ↔ (s.place r).Logged result
  log_nodup : (s.log.map Prod.fst).Nodup

/-- One request moves. -/
theorem System.Placed.move (h : s.Placed node) (place : Place)
    (hplace : s'.place = Function.update s.place r place) (hnodup : s'.queue.Nodup)
    (hqueue : ∀ q, q ≠ r → (q ∈ s'.queue ↔ q ∈ s.queue))
    (hqueued : r ∈ s'.queue ↔ place = .queued)
    (hactive : ∀ q, q ≠ r →
      (s'.cfg.cfgActive (node q) = some q ↔ s.cfg.cfgActive (node q) = some q))
    (hactive' : s'.cfg.cfgActive (node r) = some r ↔ place = .active)
    (hexecuting : ∀ q, q ≠ r → (s'.executing = some q ↔ s.executing = some q))
    (hexecuting' : s'.executing = some r ↔ place = .executed)
    (hcompleting : ∀ q result pc, q ≠ r →
      (s'.completing = some (q, result, pc) ↔ s.completing = some (q, result, pc)))
    (hcompleting' : ∀ result pc,
      s'.completing = some (r, result, pc) ↔ place = .completing result pc)
    (htaken : ∀ q, q ≠ r → q ∈ s'.cfg.dispatched → q ∈ s.cfg.dispatched)
    (htaken' : r ∈ s'.cfg.dispatched → place.Taken)
    (hlog : ∀ q result, q ≠ r → ((q, result) ∈ s'.log ↔ (q, result) ∈ s.log))
    (hlog' : ∀ result, (r, result) ∈ s'.log ↔ place.Logged result)
    (hlog_nodup : (s'.log.map Prod.fst).Nodup) : s'.Placed node where
  nodup := hnodup
  queued q := by
    by_cases hq : q = r
    . subst hq
      simpa [hplace] using hqueued
    . simpa [hplace, hq] using (hqueue q hq).trans (h.queued q)
  active q := by
    by_cases hq : q = r
    . subst hq
      simpa [hplace] using hactive'
    . simpa [hplace, hq] using (hactive q hq).trans (h.active q)
  executing q := by
    by_cases hq : q = r
    . subst hq
      simpa [hplace] using hexecuting'
    . simpa [hplace, hq] using (hexecuting q hq).trans (h.executing q)
  completing q result pc := by
    by_cases hq : q = r
    . subst hq
      simpa [hplace] using hcompleting' result pc
    . simpa [hplace, hq] using (hcompleting q result pc hq).trans (h.completing q result pc)
  taken q hq := by
    by_cases hqr : q = r
    . subst hqr
      simpa [hplace] using htaken' hq
    . simpa [hplace, hqr] using h.taken q (htaken q hqr hq)
  logged q result := by
    by_cases hq : q = r
    . subst hq
      simpa [hplace] using hlog' result
    . simpa [hplace, hq] using (hlog q result hq).trans (h.logged q result)
  log_nodup := hlog_nodup

/-- The system is in a state that a run can reach. -/
structure System.Inv [Fintype ρ] (node : ρ → Nat) (s : System ρ) : Prop where
  cfg : Cfg.Inv node s.cfg
  dead : s.cfg.Dead
  placed : s.Placed node
  request : ∀ r, (s.place r).Ok (s.caller r) (s.sync r)
  refs : s.commandRefs = total (fun r => (s.caller r).weight) + s.otherRefs
  latched : s.phase.latched = true → s.commandStopLatched = true
  closed : s.phase.closed = true → ∀ r, (s.caller r).admitted = false
  drained : s.phase.drained = true → s.queue = []
  executing : s.phase ≠ .running → s.executing = none
  completing : s.phase ≠ .running → s.phase ≠ .drain → s.phase ≠ .destroy → s.completing = none
  finished : s.phase = .finished → s.cfg.masterNmt = false ∧ s.cfg.stack = []
  initial : s.phase = .init → s.commandMq = none
  sends : ∀ r, s.caller r = .posting .send → s.commandMq ≠ none

omit [DecidableEq ρ] in
theorem Begin.inv [Fintype ρ] (h : Begin s) : s.Inv node where
  cfg := h.cfg.inv
  dead := h.cfg.dead
  placed := by
    constructor
      <;> simp [System.queue, h.commandMq, h.place, h.cfg.cfgActive, h.executing, h.completing,
        h.cfg.dispatched, h.log, Place.Logged]
  request r := by simp [h.place, h.caller, h.sync, Place.Ok, CallerPc.unsent, CallerPc.posts]
  refs := by simp [h.commandRefs, h.otherRefs, h.caller, CallerPc.weight, total]
  latched := by simp [h.phase, Phase.latched]
  closed := by simp [h.phase, Phase.closed]
  drained := by simp [h.phase, Phase.drained]
  executing := by simp [h.executing]
  completing := by simp [h.completing]
  finished := by simp [h.phase]
  initial := by simp [h.commandMq]
  sends := by simp [h.caller]

/-- A step of the caller of `r` changes only what is its own. -/
structure System.CallerOnly (s s' : System ρ) (r : ρ) : Prop where
  caller : ∀ q, q ≠ r → s'.caller q = s.caller q
  sync : ∀ q, q ≠ r → s'.sync q = s.sync q
  cfg : s'.cfg = s.cfg
  otherRefs : s'.otherRefs = s.otherRefs
  commandStopLatched : s'.commandStopLatched = s.commandStopLatched
  commandMq : s'.commandMq = s.commandMq
  phase : s'.phase = s.phase
  executing : s'.executing = s.executing
  completing : s'.completing = s.completing
  place : s'.place = s.place
  log : s'.log = s.log

theorem System.callerOnly_setCaller (pc : CallerPc) (refs : Int)
    : s.CallerOnly { s.setCaller r pc with commandRefs := refs } r := by
  constructor <;> simp +contextual [System.setCaller]

theorem System.callerOnly_setSync (pc : CallerPc) (sync : Sync)
    : s.CallerOnly ((s.setSync r sync).setCaller r pc) r := by
  constructor <;> simp +contextual [System.setCaller, System.setSync]

theorem System.Inv.call [Fintype ρ] (h : s.Inv node) (honly : s.CallerOnly s' r)
    (hok : (s.place r).Ok (s'.caller r) (s'.sync r))
    (hrefs : s'.commandRefs = s.commandRefs + ((s'.caller r).weight - (s.caller r).weight))
    (hadmitted : s.phase.closed = true → (s'.caller r).admitted = false)
    (hsends : s'.caller r = .posting .send → s.commandMq ≠ none) : s'.Inv node where
  cfg := by
    rw [honly.cfg]
    exact h.cfg
  dead := by
    rw [honly.cfg]
    exact h.dead
  placed := by
    obtain ⟨hnodup, hqueued, hactive, hexecuting, hcompleting, htaken, hlogged, hlog⟩ := h.placed
    constructor <;> simpa only [System.queue, honly.commandMq, honly.place, honly.cfg,
      honly.executing, honly.completing, honly.log]
  request q := by
    by_cases hq : q = r
    . subst hq
      simpa [honly.place] using hok
    . simpa [honly.place, honly.caller q hq, honly.sync q hq] using h.request q
  refs := by
    have htotal : total (fun q => (s'.caller q).weight)
        = total (fun q => (s.caller q).weight) + ((s'.caller r).weight - (s.caller r).weight) :=
      total_change r fun q hq => by simp [honly.caller q hq]
    rw [hrefs, h.refs, htotal, honly.otherRefs]
    omega
  latched := by simpa [honly.phase, honly.commandStopLatched] using h.latched
  closed hclosed q := by
    rw [honly.phase] at hclosed
    by_cases hq : q = r
    . subst hq
      exact hadmitted hclosed
    . rw [honly.caller q hq]
      exact h.closed hclosed q
  drained := by simpa [honly.phase, System.queue, honly.commandMq] using h.drained
  executing := by simpa [honly.phase, honly.executing] using h.executing
  completing := by simpa [honly.phase, honly.completing] using h.completing
  finished := by simpa [honly.phase, honly.cfg] using h.finished
  initial := by simpa [honly.phase, honly.commandMq] using h.initial
  sends q hq := by
    rw [honly.commandMq]
    by_cases hqr : q = r
    . subst hqr
      exact hsends hq
    . rw [honly.caller q hqr] at hq
      exact h.sends q hq

/-- The caller moves on and `command_refs` changes by its weight. -/
theorem System.Inv.setCaller [Fintype ρ] (h : s.Inv node) (pc : CallerPc) (diff : Int)
    (hok : (s.place r).Ok pc (s.sync r)) (hdiff : diff = pc.weight - (s.caller r).weight)
    (hadmitted : pc.admitted = true → s.phase.closed = false)
    (hsends : pc = .posting .send → s.commandMq ≠ none)
    : System.Inv node { s.setCaller r pc with commandRefs := s.commandRefs + diff } := by
  refine h.call (System.callerOnly_setCaller pc _) (by simpa [System.setCaller] using hok)
    (by simp [System.setCaller, hdiff]) ?_ (by simpa [System.setCaller] using hsends)
  intro hclosed
  cases hpc : pc.admitted with
  | false => simpa [System.setCaller] using hpc
  | true => simp [hadmitted hpc] at hclosed

theorem System.Inv.setSync [Fintype ρ] (h : s.Inv node) (pc : CallerPc) (sync : Sync)
    (hok : (s.place r).Ok pc sync) (hweight : pc.weight = 0) (hweight' : (s.caller r).weight = 0)
    (hadmitted : pc.admitted = false) : ((s.setSync r sync).setCaller r pc).Inv node := by
  refine h.call (System.callerOnly_setSync pc sync)
    (by simpa [System.setCaller, System.setSync] using hok) ?_ ?_ ?_
  . simp [System.setCaller, System.setSync, hweight, hweight']
  . intro _
    simpa [System.setCaller, System.setSync] using hadmitted
  . intro hsend
    have hpc : pc = .posting .send := by simpa [System.setCaller, System.setSync] using hsend
    simp [hpc, CallerPc.admitted, PostPc.admitted] at hadmitted

omit [DecidableEq ρ] in
/-- A caller that goes on past the checks has found the owner not closed. -/
theorem System.Inv.not_closed [Fintype ρ] (h : s.Inv node) (hlatched : s.commandStopLatched = false)
    : s.phase.closed = false := by
  cases hclosed : s.phase.closed with
  | false => rfl
  | true =>
    have hphase : s.phase.latched = true := by
      cases hp : s.phase <;> simp_all [Phase.closed, Phase.latched]
    simp [h.latched hphase] at hlatched

omit [DecidableEq ρ] in
theorem System.Inv.not_closed_of_admitted [Fintype ρ] (h : s.Inv node)
    (hadmitted : (s.caller r).admitted = true) : s.phase.closed = false := by
  cases hphase : s.phase.closed with
  | false => rfl
  | true => simp [h.closed hphase r] at hadmitted

theorem System.Inv.send [Fintype ρ] (h : s.Inv node) (hpc : s.caller r = .posting .send)
    : System.Inv node
        {
          (s.setPlace r .queued).setCaller r (.posting .event) with
            commandMq := some (s.queue ++ [r])
        } := by
  have hok := h.request r
  rw [hpc] at hok
  obtain ⟨hplace, hdone, hrefs, hinit⟩ := hok.unsent rfl
  have hfresh : r ∉ s.queue := by simp [h.placed.queued, hplace]
  have hopen : s.phase.closed = false :=
    h.not_closed_of_admitted (r := r) (by simp [hpc, CallerPc.admitted, PostPc.admitted])
  have hnotDrained : s.phase.drained = false := by
    cases hphase : s.phase <;> simp_all [Phase.closed, Phase.drained]
  refine ⟨h.cfg, h.dead, ?_, ?_, ?_, h.latched, ?_, ?_, h.executing, h.completing, h.finished, ?_, by simp⟩
  . refine h.placed.move (r := r) .queued rfl ?_ ?_ ?_ (fun _ _ => .rfl) ?_ (fun _ _ => .rfl) ?_
      (fun _ _ _ _ => .rfl) ?_ (fun _ _ hq => hq) ?_ (fun _ _ _ => .rfl) ?_ h.placed.log_nodup
    . simpa [System.queue, List.nodup_append, hfresh] using
        ⟨h.placed.nodup, fun q hq heq => hfresh (heq ▸ hq)⟩
    . intro q hq
      simp [System.queue, hq]
    . simp [System.queue]
    . exact iff_of_false (mt (h.placed.active r).mp (by simp [hplace])) (by simp)
    . exact iff_of_false (mt (h.placed.executing r).mp (by simp [hplace])) (by simp)
    . intro result pc
      exact iff_of_false (mt (h.placed.completing r result pc).mp (by simp [hplace])) (by simp)
    . intro hr
      simpa [hplace, Place.Taken] using h.placed.taken r hr
    . intro result
      exact iff_of_false (mt (h.placed.logged r result).mp (by simp [hplace, Place.Logged]))
        (by simp [Place.Logged])
  . intro q
    by_cases hq : q = r
    . subst hq
      simpa [System.setCaller, System.setPlace, Place.Ok, CallerPc.waiting, hdone, hrefs]
        using hinit rfl
    . simpa [System.setCaller, System.setPlace, hq] using h.request q
  . have hweight : ∀ q, (Function.update s.caller r (.posting .event) q).weight = (s.caller q).weight := by
      intro q
      by_cases hq : q = r
      . subst hq
        simp [hpc, CallerPc.weight, PostPc.counted]
      . simp [hq]
    have htotal := total_congr hweight
    simpa [System.setCaller, System.setPlace, htotal] using h.refs
  . intro hclosed
    simp [System.setCaller, System.setPlace, hopen] at hclosed
  . intro hdrained
    simp [System.setCaller, System.setPlace, hnotDrained] at hdrained
  . intro hinitial
    exact absurd (h.initial hinitial) (h.sends r hpc)

/-- The caller moves on and keeps its weight. -/
theorem System.Inv.setCaller_zero [Fintype ρ] (h : s.Inv node) (pc : CallerPc)
    (hok : (s.place r).Ok pc (s.sync r)) (hweight : pc.weight = (s.caller r).weight)
    (hadmitted : pc.admitted = true → s.phase.closed = false)
    (hsends : pc = .posting .send → s.commandMq ≠ none) : (s.setCaller r pc).Inv node := by
  have hnext := h.setCaller pc 0 hok (by simp [hweight]) hadmitted hsends
  simpa [System.setCaller] using hnext

theorem System.Inv.postStep [Fintype ρ] (h : s.Inv node) {pc : PostPc} (hpc : s.caller r = .posting pc)
    (choice : Bool) : (s.callerStep r choice).Inv node := by
  have hok := h.request r
  rw [hpc] at hok
  have hadmitted : pc.admitted = true → s.phase.closed = false := by
    intro hpc'
    exact h.not_closed_of_admitted (r := r) (by simpa [hpc, CallerPc.admitted] using hpc')
  cases pc with
  | latched | quiescing =>
    simp only [System.callerStep, hpc]
    refine h.setCaller_zero _ (hok.of_unsent rfl ?_ rfl rfl (fun _ => ⟨rfl, rfl⟩)) ?_ ?_ ?_
    all_goals split <;> simp [hpc, CallerPc.unsent, CallerPc.weight, CallerPc.admitted, PostPc.counted,
      PostPc.admitted]
  | add =>
    simp only [System.callerStep, hpc]
    exact h.setCaller _ 1 (hok.of_unsent rfl rfl rfl rfl (by simp [CallerPc.posts]))
      (by simp [hpc, CallerPc.weight, PostPc.counted]) (by simp [CallerPc.admitted, PostPc.admitted])
      (by simp)
  | latchedAgain =>
    simp only [System.callerStep, hpc]
    refine h.setCaller_zero _ (hok.of_unsent rfl ?_ rfl rfl (fun _ => ⟨rfl, rfl⟩)) ?_ ?_ ?_
    . split <;> simp [CallerPc.unsent]
    . split <;> simp [hpc, CallerPc.weight, PostPc.counted]
    . split
      next => simp [CallerPc.admitted, PostPc.admitted]
      next hlatched =>
        intro _
        exact h.not_closed (by simpa using hlatched)
    . split <;> simp
  | quiescingAgain | queue =>
    simp only [System.callerStep, hpc]
    refine h.setCaller_zero _ (hok.of_unsent rfl ?_ rfl rfl (fun _ => ⟨rfl, rfl⟩)) ?_
      (fun _ => hadmitted rfl) ?_
    all_goals
      split <;> simp_all [CallerPc.unsent, CallerPc.weight, PostPc.counted, Option.isSome_iff_ne_none]
  | undo =>
    simp only [System.callerStep, hpc]
    exact h.setCaller _ (-1) (hok.of_unsent rfl rfl rfl rfl (by simp [CallerPc.posts]))
      (by simp [hpc, CallerPc.weight, PostPc.counted]) (by simp [CallerPc.admitted]) (by simp)
  | send =>
    simp only [System.callerStep, hpc]
    split
    . exact h.setCaller_zero _ (hok.of_unsent rfl rfl rfl rfl (by simp [CallerPc.posts]))
        (by simp [hpc, CallerPc.weight, PostPc.counted]) (fun _ => hadmitted rfl) (by simp)
    . exact h.send hpc
  | event =>
    simp only [System.callerStep, hpc]
    exact h.setCaller_zero _ (hok.of_waiting rfl rfl rfl rfl rfl rfl)
      (by simp [hpc, CallerPc.weight, PostPc.counted]) (fun _ => hadmitted rfl) (by simp)
  | release err =>
    simp only [System.callerStep, hpc]
    refine h.setCaller _ (-1) ?_ ?_ ?_ ?_
    . split
      next herr =>
        subst herr
        exact hok.of_waiting rfl rfl rfl rfl rfl rfl
      next herr =>
        exact hok.of_unsent (by simp [CallerPc.unsent, herr]) rfl rfl rfl (by simp [CallerPc.posts])
    all_goals split <;> simp [hpc, CallerPc.weight, PostPc.counted, CallerPc.admitted]

theorem System.Inv.callerStep [Fintype ρ] (h : s.Inv node) (r : ρ) (choice : Bool)
    : (s.callerStep r choice).Inv node := by
  have hok := h.request r
  cases hpc : s.caller r with
  | idle =>
    rw [hpc] at hok
    simp only [System.callerStep, hpc]
    split
    . obtain ⟨hplace, _⟩ := hok.unsent rfl
      refine h.setSync _ _ ?_ rfl (by simp [hpc, CallerPc.weight]) rfl
      rw [hplace]
      exact ⟨rfl, rfl, rfl, fun _ => rfl⟩
    . exact h.setCaller_zero _ (hok.of_unsent rfl rfl rfl rfl (by simp [CallerPc.posts])) (by simp [hpc, CallerPc.weight])
        (by simp [CallerPc.admitted]) (by simp)
  | posting pc => exact h.postStep hpc choice
  | waitDone =>
    rw [hpc] at hok
    simp only [System.callerStep, hpc]
    split
    next hdone => exact h.setCaller_zero _ (hok.of_done hdone rfl) (by simp [hpc, CallerPc.weight]) (by simp [CallerPc.admitted]) (by simp)
    next =>
      exact h.setCaller_zero _ (hok.of_waiting rfl rfl rfl rfl rfl rfl) (by simp [hpc, CallerPc.weight])
        (by simp [CallerPc.admitted]) (by simp)
  | waitReceive =>
    rw [hpc] at hok
    simp only [System.callerStep, hpc]
    split
    . exact h.setSync _ _ (hok.of_waiting rfl rfl rfl rfl rfl rfl) rfl (by simp [hpc, CallerPc.weight]) rfl
    . split
      . exact h.setCaller_zero _ (hok.of_waiting rfl rfl rfl rfl rfl rfl) (by simp [hpc, CallerPc.weight])
          (by simp [CallerPc.admitted]) (by simp)
      . exact h
  | waitResult =>
    rw [hpc] at hok
    simp only [System.callerStep, hpc]
    exact h.setCaller_zero _ hok.of_waitResult (by simp [hpc, CallerPc.weight]) (by simp [CallerPc.admitted]) (by simp)
  | finiRefs posted result =>
    rw [hpc] at hok
    simp only [System.callerStep, hpc]
    split
    next hrefs =>
      refine h.setCaller_zero _ ?_ (by simp [hpc, CallerPc.weight]) (by simp [CallerPc.admitted]) (by simp)
      cases posted with
      | false => exact hok.of_unsent rfl rfl rfl rfl (by simp [CallerPc.posts])
      | true => exact hok.of_finiRefs hrefs
    next => exact h
  | finiDetach posted result =>
    rw [hpc] at hok
    simp only [System.callerStep, hpc]
    refine h.setSync _ _ ?_ rfl (by simp [hpc, CallerPc.weight]) rfl
    cases posted with
    | false => exact hok.of_unsent rfl rfl rfl rfl (by simp [CallerPc.posts])
    | true => exact hok.of_finiDetach rfl rfl rfl
  | returned posted result =>
    simp only [System.callerStep, hpc]
    exact h

theorem System.Inv.callStep [Fintype ρ] (h : s.Inv node) (hstep : CallStep s s') : s'.Inv node := by
  cases hstep with
  | caller r choice => exact h.callerStep r choice
  | otherAdd =>
    have hrefs := h.refs
    exact { h with placed := { h.placed with }, refs := by push_cast ; omega }
  | otherSub n hn =>
    have hrefs := h.refs
    rw [hn] at hrefs
    push_cast at hrefs
    exact { h with placed := { h.placed with }, refs := by dsimp only ; omega }
  | stopLatch => exact { h with placed := { h.placed with }, latched := fun _ => rfl }
  | stopQuiesce _ => exact { h with placed := { h.placed with } }

/-- The owner moves a request and changes nothing that the other threads write. -/
structure System.Moves (s s' : System ρ) (r : ρ) : Prop where
  caller : s'.caller = s.caller
  sync : ∀ q, q ≠ r → s'.sync q = s.sync q
  commandRefs : s'.commandRefs = s.commandRefs
  otherRefs : s'.otherRefs = s.otherRefs
  commandStopLatched : s'.commandStopLatched = s.commandStopLatched
  commandMq : s'.commandMq = none ↔ s.commandMq = none
  phase : s'.phase = s.phase
  place : ∀ q, q ≠ r → s'.place q = s.place q

theorem System.Inv.moves [Fintype ρ] (h : s.Inv node) (hmoves : s.Moves s' r)
    (hcfg : Cfg.Inv node s'.cfg) (hdead : s'.cfg.Dead) (hplaced : s'.Placed node)
    (hok : (s'.place r).Ok (s.caller r) (s'.sync r)) (hqueue : s.queue = [] → s'.queue = [])
    (hexecuting : s.phase ≠ .running → s'.executing = none)
    (hphase : s.phase = .running ∨ s.phase = .drain ∨ s.phase = .destroy) : s'.Inv node where
  cfg := hcfg
  dead := hdead
  placed := hplaced
  request q := by
    rw [hmoves.caller]
    by_cases hq : q = r
    . subst hq
      exact hok
    . rw [hmoves.place q hq, hmoves.sync q hq]
      exact h.request q
  refs := by simpa [hmoves.commandRefs, hmoves.caller, hmoves.otherRefs] using h.refs
  latched := by simpa [hmoves.phase, hmoves.commandStopLatched] using h.latched
  closed := by simpa [hmoves.phase, hmoves.caller] using h.closed
  drained hdrained := hqueue (h.drained (hmoves.phase ▸ hdrained))
  executing := by simpa [hmoves.phase] using hexecuting
  completing hrunning hdrain hdestroy := by
    rw [hmoves.phase] at hrunning hdrain hdestroy
    simp [hrunning, hdrain, hdestroy] at hphase
  finished hfinished := by
    rw [hmoves.phase] at hfinished
    simp [hfinished] at hphase
  initial hinitial := by
    rw [hmoves.phase] at hinitial
    simp [hinitial] at hphase
  sends q hq := by
    rw [hmoves.caller] at hq
    exact mt hmoves.commandMq.mp (h.sends q hq)

omit [DecidableEq ρ] in
/-- The owner moves on while all requests stay where they are. -/
theorem System.Inv.advance [Fintype ρ] (h : s.Inv node) (phase : Phase) (latched quiescing : Bool)
    (hlatched : phase.latched = true → latched = true)
    (hclosed : phase.closed = true → ∀ r, (s.caller r).admitted = false)
    (hdrained : phase.drained = true → s.queue = [])
    (hexecuting : phase ≠ .running → s.executing = none)
    (hcompleting : phase ≠ .running → phase ≠ .drain → phase ≠ .destroy → s.completing = none)
    (hfinished : phase = .finished → s.cfg.masterNmt = false ∧ s.cfg.stack = [])
    (hinitial : phase ≠ .init)
    : System.Inv node
        { s with phase := phase, commandStopLatched := latched, commandQuiescing := quiescing } :=
  {
    h with
      placed := { h.placed with }
      latched := hlatched
      closed := hclosed
      drained := hdrained
      executing := hexecuting
      completing := hcompleting
      finished := hfinished
      initial := fun heq => absurd heq hinitial
  }

omit [DecidableEq ρ] in
theorem System.Inv.phase_of_completing [Fintype ρ] (h : s.Inv node) (hcompleting : s.completing ≠ none)
    : s.phase = .running ∨ s.phase = .drain ∨ s.phase = .destroy := by
  by_contra hphase
  simp only [not_or] at hphase
  exact hcompleting (h.completing hphase.1 hphase.2.1 hphase.2.2)

/-- The owner goes on completing the request, or lets go of it. -/
theorem System.Inv.progress [Fintype ρ] (h : s.Inv node) {result : RtErr} {pc : CompletePc}
    (hcompleting : s.completing = some (r, result, pc)) (place : Place) (sync : Sync)
    (next : Option (ρ × RtErr × CompletePc)) (log : List (ρ × RtErr))
    (hok : place.Ok (s.caller r) sync)
    (hnext : next = none ∧ place = .completed result
      ∨ ∃ pc', next = some (r, result, pc') ∧ place = .completing result pc')
    (hlog : ∀ q result, q ≠ r → ((q, result) ∈ log ↔ (q, result) ∈ s.log))
    (hlog' : ∀ result, (r, result) ∈ log ↔ place.Logged result)
    (hlog_nodup : (log.map Prod.fst).Nodup)
    : System.Inv node
        { (s.setSync r sync).setPlace r place with completing := next, log := log } := by
  have hplace := (h.placed.completing r result pc).mp hcompleting
  have htaken : place.Taken := by
    obtain ⟨_, rfl⟩ | ⟨pc', _, rfl⟩ := hnext <;> trivial
  refine h.moves (r := r) ?_ h.cfg h.dead ?_ ?_ id h.executing (h.phase_of_completing (by simp [hcompleting]))
  . constructor <;> simp +contextual [System.setPlace, System.setSync]
  . refine h.placed.move (r := r) place rfl h.placed.nodup (fun _ _ => .rfl) ?_ (fun _ _ => .rfl) ?_
      (fun _ _ => .rfl) ?_ ?_ ?_ (fun _ _ hq => hq) (fun _ => htaken) hlog hlog' hlog_nodup
    . refine iff_of_false (mt (h.placed.queued r).mp (by simp [hplace])) ?_
      rintro rfl
      exact htaken
    . refine iff_of_false (mt (h.placed.active r).mp (by simp [hplace])) ?_
      rintro rfl
      simp at hnext
    . refine iff_of_false (mt (h.placed.executing r).mp (by simp [hplace])) ?_
      rintro rfl
      exact htaken
    . intro q result' pc' hq
      refine iff_of_false ?_ (by simp [hcompleting, Ne.symm hq])
      obtain ⟨rfl, _⟩ | ⟨pc', rfl, _⟩ := hnext
      . simp
      . simp [Ne.symm hq]
    . intro result' pc'
      obtain ⟨rfl, rfl⟩ | ⟨pc'', rfl, rfl⟩ := hnext
      . simp
      . simp
  . simpa [System.setPlace, System.setSync] using hok

theorem System.Inv.completeStep [Fintype ρ] (h : s.Inv node) {result : RtErr} {pc : CompletePc}
    (hcompleting : s.completing = some (r, result, pc)) : (s.completeStep r result pc).Inv node := by
  have hplace := (h.placed.completing r result pc).mp hcompleting
  have hlogged := h.placed.logged r
  have hok := h.request r
  rw [hplace] at hok hlogged
  have hsame : ∀ q result, q ≠ r → ((q, result) ∈ s.log ↔ (q, result) ∈ s.log) := fun _ _ _ => .rfl
  have hgo := h.progress hcompleting
  cases pc with
  | load =>
    obtain ⟨hwaiting, hinit, hdone, hrefs⟩ := hok
    simp only [System.completeStep, hinit, hdone]
    exact hgo _ _ _ s.log ⟨hwaiting, hinit, hdone, hrefs⟩ (.inr ⟨_, rfl, rfl⟩) hsame
      (by simpa [Place.Logged] using hlogged) h.placed.log_nodup
  | storeResult =>
    obtain ⟨hwaiting, hinit, hdone, hrefs⟩ := hok
    exact hgo _ _ _ s.log ⟨hwaiting, hinit, hdone, hrefs, rfl⟩ (.inr ⟨_, rfl, rfl⟩) hsame
      (by simpa [Place.Logged] using hlogged) h.placed.log_nodup
  | storeRefs =>
    obtain ⟨hwaiting, hinit, hdone, hrefs, hresult⟩ := hok
    exact hgo _ _ _ s.log ⟨hwaiting, hinit, hdone, rfl, hresult⟩ (.inr ⟨_, rfl, rfl⟩) hsame
      (by simpa [Place.Logged] using hlogged) h.placed.log_nodup
  | storeDone =>
    obtain ⟨hwaiting, hinit, hdone, hrefs, hresult⟩ := hok
    have hfresh : r ∉ s.log.map Prod.fst := by
      simpa [Place.Logged] using hlogged
    refine hgo _ _ _ _ ⟨.inl hwaiting, rfl, hrefs, hresult⟩ (.inr ⟨_, rfl, rfl⟩) ?_ ?_ ?_
    . intro q result' hq
      simp [hq]
    . intro result'
      have hnot : (r, result') ∉ s.log := by simpa [Place.Logged] using hlogged result'
      simp [Place.Logged, hnot, eq_comm]
    . have hdisjoint : (s.log.map Prod.fst).Disjoint [r] := by simpa using hfresh
      simpa using List.nodup_append'.mpr ⟨h.placed.log_nodup, List.nodup_singleton r, hdisjoint⟩
  | send =>
    obtain ⟨hcaller, hdone, hrefs, hresult⟩ := hok
    exact hgo _ _ _ s.log ⟨hcaller, hdone, hrefs, hresult⟩ (.inr ⟨_, rfl, rfl⟩) hsame
      (by simpa [Place.Logged] using hlogged) h.placed.log_nodup
  | clearRefs =>
    obtain ⟨hcaller, hdone, hrefs, hresult⟩ := hok
    refine hgo _ _ _ s.log ⟨?_, hdone, rfl, hresult⟩ (.inl ⟨rfl, rfl⟩) hsame
      (by simpa [Place.Logged] using hlogged) h.placed.log_nodup
    exact hcaller.imp id .inl

/-- The owner begins to complete a request that it has. -/
theorem System.Placed.complete (h : s.Placed node) {result : RtErr} (hcompleting : s.completing = none)
    (hunlogged : ∀ result, ¬(s.place r).Logged result)
    (hplace : s'.place = Function.update s.place r (.completing result .load))
    (hnext : s'.completing = some (r, result, .load)) (hlog : s'.log = s.log)
    (hnodup : s'.queue.Nodup) (hqueue : ∀ q, q ∈ s'.queue ↔ q ≠ r ∧ q ∈ s.queue)
    (hactive : ∀ q, s'.cfg.cfgActive (node q) = some q ↔ q ≠ r ∧ s.cfg.cfgActive (node q) = some q)
    (hexecuting : ∀ q, s'.executing = some q ↔ q ≠ r ∧ s.executing = some q)
    (htaken : ∀ q ∈ s'.cfg.dispatched, q = r ∨ q ∈ s.cfg.dispatched) : s'.Placed node := by
  refine h.move (r := r) (.completing result .load) hplace hnodup ?_ ?_ ?_ ?_ ?_ ?_ ?_ ?_ ?_ ?_ ?_ ?_ ?_
  . intro q hq
    simp [hqueue, hq]
  . simp [hqueue]
  . intro q hq
    simp [hactive, hq]
  . simp [hactive]
  . intro q hq
    simp [hexecuting, hq]
  . simp [hexecuting]
  . intro q result' pc hq
    simp [hnext, hcompleting, Ne.symm hq]
  . intro result' pc
    simp [hnext]
  . intro q hq hmem
    exact (htaken q hmem).resolve_left hq
  . intro _
    trivial
  . intro q result' _
    rw [hlog]
  . intro result'
    rw [hlog, h.logged]
    exact iff_of_false (hunlogged result') (by simp [Place.Logged])
  . rw [hlog]
    exact h.log_nodup

variable {cfg : State ρ} {effect : Effect ρ}

/-- A step of the configuration code that leaves all requests where they are. -/
theorem System.Inv.setCfg [Fintype ρ] (h : s.Inv node) (hphase : s.phase ≠ .finished)
    (hstep : Step node s.cfg effect cfg) (hdispatched : cfg.dispatched = s.cfg.dispatched)
    (hactive : cfg.cfgActive = s.cfg.cfgActive) : System.Inv node { s with cfg := cfg } :=
  {
    h with
      cfg := h.cfg.step hstep
      dead := h.dead.step h.cfg hstep
      placed :=
        {
          h.placed with
            active := by simpa [hactive] using h.placed.active
            taken := by simpa [hdispatched] using h.placed.taken
        }
      finished := fun hfinished => absurd hfinished hphase
  }

/-- A step of the configuration code that does not take a request from the queue. -/
theorem System.Inv.keeps [Fintype ρ] (h : s.Inv node) (hcompleting : s.completing = none)
    (hphase : s.phase = .running ∨ s.phase = .destroy) (hstep : Step node s.cfg effect cfg)
    (horigin : effect.origin ≠ .dispatch ∧ effect.origin ≠ .drain)
    : (s.afterCfg cfg effect).Inv node := by
  have hcfg := h.cfg.step hstep
  have hdead := h.dead.step h.cfg hstep
  obtain ⟨_, hdispatched, hresult⟩ := hstep.keeps h.cfg horigin
  obtain ⟨hnone, _, hactive⟩ | ⟨r, hsome, _, hactive, hactive'⟩ := hresult
  . rw [System.afterCfg, hnone]
    refine h.setCfg ?_ hstep hdispatched hactive
    obtain hphase | hphase := hphase <;> simp [hphase]
  . rw [System.afterCfg, hsome]
    have hplace := (h.placed.active r).mp hactive
    have hok := h.request r
    rw [hplace] at hok
    refine h.moves (r := r) ?_ hcfg hdead ?_ ?_ ?_ ?_ ?_
    . constructor <;> simp +contextual [System.complete, System.setPlace]
    . refine h.placed.complete hcompleting ?_ rfl rfl rfl h.placed.nodup ?_ ?_ ?_ ?_
      . simp [hplace, Place.Logged]
      . intro q
        refine ⟨fun hq => ⟨?_, hq⟩, And.right⟩
        rintro rfl
        simpa [hplace] using (h.placed.queued q).mp hq
      . intro q
        show cfg.cfgActive (node q) = some q ↔ _
        rw [hactive']
        by_cases hn : node q = node r
        . rw [hn, Function.update_self, hactive]
          simp +contextual [eq_comm]
        . rw [Function.update_of_ne hn]
          refine ⟨fun hq => ⟨?_, hq⟩, And.right⟩
          rintro rfl
          exact hn rfl
      . intro q
        refine ⟨fun hq => ⟨?_, hq⟩, And.right⟩
        rintro rfl
        simpa [hplace] using (h.placed.executing q).mp hq
      . intro q hq
        exact .inr (hdispatched ▸ hq)
    . have hok' : (Place.completing .ok .load).Ok (s.caller r) (s.sync r) := hok
      simpa [System.complete, System.setPlace] using hok'
    . exact id
    . exact h.executing
    . exact hphase.imp id .inr

omit [DecidableEq ρ] in
/-- The request at the head of the queue is nowhere else. -/
theorem System.Inv.head [Fintype ρ] (h : s.Inv node) {rest : List ρ}
    (hqueue : s.commandMq = some (r :: rest))
    : rest.Nodup ∧ (∀ q, q ∈ rest ↔ q ≠ r ∧ q ∈ s.queue) ∧ s.place r = .queued := by
  have hnodup := h.placed.nodup
  simp only [System.queue, hqueue, Option.getD_some, List.nodup_cons] at hnodup
  refine ⟨hnodup.2, ?_, (h.placed.queued r).mp (by simp [System.queue, hqueue])⟩
  intro q
  simp only [System.queue, hqueue, Option.getD_some, List.mem_cons]
  constructor
  . intro hq
    refine ⟨?_, .inr hq⟩
    rintro rfl
    exact hnodup.1 hq
  . rintro ⟨hne, heq | hq⟩
    . exact absurd heq hne
    . exact hq

/-- A step of the configuration code that takes a request from the queue. -/
theorem System.Inv.takes [Fintype ρ] (h : s.Inv node) {rest : List ρ} (hcompleting : s.completing = none)
    (hphase : s.phase = .running ∨ s.phase = .drain) (hqueue : s.commandMq = some (r :: rest))
    (hstep : Step node s.cfg effect cfg)
    (horigin : effect.origin = .dispatch ∨ effect.origin = .drain) (haccesses : effect.accesses = [r])
    : (({ s with commandMq := some rest }.setPlace r .active).afterCfg cfg effect).Inv node := by
  have hcfg := h.cfg.step hstep
  have hdead := h.dead.step h.cfg hstep
  obtain ⟨q, hfresh, haccesses', hdispatched, hresult⟩ := hstep.takes h.cfg horigin
  obtain rfl : q = r := by simpa [haccesses] using haccesses'.symm
  obtain ⟨hnodup, hrest, hplace⟩ := h.head hqueue
  have hok := h.request q
  rw [hplace] at hok
  have hexecuting : ∀ q', s.executing = some q' → q' ≠ q := by
    rintro q' hq' rfl
    simpa [hplace] using (h.placed.executing q').mp hq'
  have hinactive : ∀ q', s.cfg.cfgActive (node q') = some q' → q' ≠ q := by
    rintro q' hq' rfl
    simpa [hplace] using (h.placed.active q').mp hq'
  obtain ⟨hsome, _, hactive⟩ | ⟨hnone, _, hfree, hactive⟩ := hresult
  . rw [System.afterCfg, hsome]
    refine h.moves (r := q) ?_ hcfg hdead ?_ ?_ ?_ ?_ ?_
    . constructor <;> simp +contextual [System.complete, System.setPlace, hqueue]
    . refine h.placed.complete hcompleting (by simp [hplace, Place.Logged]) ?_ rfl rfl hnodup hrest
        ?_ ?_ ?_
      . simp [System.complete, System.setPlace]
      . intro q'
        show cfg.cfgActive (node q') = some q' ↔ _
        rw [hactive]
        exact ⟨fun hq' => ⟨hinactive q' hq', hq'⟩, And.right⟩
      . intro q'
        exact ⟨fun hq' => ⟨hexecuting q' hq', hq'⟩, And.right⟩
      . intro q' hq'
        have hmem : q' ∈ s.cfg.dispatched ++ [q] := hdispatched ▸ hq'
        simpa [or_comm] using hmem
    . have hok' : (Place.completing .ok .load).Ok (s.caller q) (s.sync q) := hok
      simpa [System.complete, System.setPlace] using hok'
    . intro hempty
      simp [System.queue, hqueue] at hempty
    . exact h.executing
    . exact hphase.imp id .inl
  . rw [System.afterCfg, hnone]
    refine h.moves (r := q) ?_ hcfg hdead ?_ ?_ ?_ ?_ ?_
    . constructor <;> simp +contextual [System.setPlace, hqueue]
    . refine h.placed.move (r := q) .active rfl hnodup ?_ ?_ ?_ ?_ (fun _ _ => .rfl) ?_
        (fun _ _ _ _ => .rfl) ?_ ?_ (fun _ => trivial) (fun _ _ _ => .rfl) ?_ h.placed.log_nodup
      . intro q' hq'
        refine (hrest q').trans ?_
        simp [hq']
      . exact iff_of_false (fun hq' => ((hrest q).mp hq').1 rfl) (by simp)
      . intro q' hq'
        show cfg.cfgActive (node q') = some q' ↔ _
        rw [hactive]
        by_cases hn : node q' = node q
        . rw [hn, Function.update_self, hfree]
          simp [Ne.symm hq']
        . rw [Function.update_of_ne hn]
      . exact iff_of_true (by simp [hactive]) rfl
      . exact iff_of_false (fun hq' => hexecuting q hq' rfl) (by simp)
      . intro result pc
        exact iff_of_false (by simp [System.setPlace, hcompleting]) (by simp)
      . intro q' hq' hmem
        have hmem' : q' ∈ s.cfg.dispatched ++ [q] := hdispatched ▸ hmem
        simpa [hq'] using hmem'
      . intro result
        exact iff_of_false (mt (h.placed.logged q result).mp (by simp [hplace, Place.Logged]))
          (by simp [Place.Logged])
    . have hok' : Place.active.Ok (s.caller q) (s.sync q) := hok
      simpa [System.setPlace] using hok'
    . intro hempty
      simp [System.queue, hqueue] at hempty
    . exact h.executing
    . exact hphase.imp id .inl

omit [DecidableEq ρ] in
/-- No caller holds a reference that it may send with when `command_refs` is zero. -/
theorem System.Inv.not_admitted [Fintype ρ] (h : s.Inv node) (hrefs : s.commandRefs = 0) (r : ρ)
    : (s.caller r).admitted = false := by
  have hle := le_total (fun q => (s.caller q).weight_nonneg) r
  have hcount := h.refs
  cases hadmitted : (s.caller r).admitted with
  | false => rfl
  | true =>
    have hweight := CallerPc.weight_of_admitted hadmitted
    omega

/-- The owner begins to execute a request. -/
theorem System.Inv.execute [Fintype ρ] (h : s.Inv node) {rest : List ρ} (hcompleting : s.completing = none)
    (hphase : s.phase = .running) (hexecuting : s.executing = none)
    (hqueue : s.commandMq = some (r :: rest))
    : System.Inv node { s.setPlace r .executed with commandMq := some rest, executing := some r } := by
  obtain ⟨hnodup, hrest, hplace⟩ := h.head hqueue
  have hok := h.request r
  rw [hplace] at hok
  refine h.moves (r := r) ?_ h.cfg h.dead ?_ ?_ ?_ ?_ (.inl hphase)
  . constructor <;> simp +contextual [System.setPlace, hqueue]
  . refine h.placed.move (r := r) .executed rfl hnodup ?_ ?_ (fun _ _ => .rfl) ?_ ?_ ?_
      (fun _ _ _ _ => .rfl) ?_ (fun _ _ hq => hq) ?_ (fun _ _ _ => .rfl) ?_ h.placed.log_nodup
    . intro q hq
      refine (hrest q).trans ?_
      simp [hq]
    . exact iff_of_false (fun hr => ((hrest r).mp hr).1 rfl) (by simp)
    . exact iff_of_false (mt (h.placed.active r).mp (by simp [hplace])) (by simp)
    . intro q hq
      simp [hexecuting, Ne.symm hq]
    . exact iff_of_true rfl rfl
    . intro result pc
      exact iff_of_false (by simp [System.setPlace, hcompleting]) (by simp)
    . intro hr
      simpa [hplace, Place.Taken] using h.placed.taken r hr
    . intro result
      exact iff_of_false (mt (h.placed.logged r result).mp (by simp [hplace, Place.Logged]))
        (by simp [Place.Logged])
  . have hok' : Place.executed.Ok (s.caller r) (s.sync r) := hok
    simpa [System.setPlace] using hok'
  . intro hempty
    simp [System.queue, hqueue] at hempty
  . intro hne
    exact absurd hphase hne

/-- The owner begins to complete a request that it executes. -/
theorem System.Inv.completeExecuted [Fintype ρ] (h : s.Inv node) (result : RtErr)
    (hcompleting : s.completing = none) (hexecuting : s.executing = some r)
    : ({ s with executing := none }.complete r result).Inv node := by
  have hphase : s.phase = .running := by
    by_contra hphase
    simp [h.executing hphase] at hexecuting
  have hplace := (h.placed.executing r).mp hexecuting
  have hok := h.request r
  rw [hplace] at hok
  refine h.moves (r := r) ?_ h.cfg h.dead ?_ ?_ id (fun _ => rfl) (.inl hphase)
  . constructor <;> simp +contextual [System.complete, System.setPlace]
  . refine h.placed.complete hcompleting (by simp [hplace, Place.Logged]) rfl rfl rfl h.placed.nodup
      ?_ ?_ ?_ (fun _ hq => .inr hq)
    . intro q
      refine ⟨fun hq => ⟨?_, hq⟩, And.right⟩
      rintro rfl
      simpa [hplace] using (h.placed.queued q).mp hq
    . intro q
      refine ⟨fun hq => ⟨?_, hq⟩, And.right⟩
      rintro rfl
      simpa [hplace] using (h.placed.active q).mp hq
    . intro q
      rw [hexecuting]
      simp +contextual [System.complete, System.setPlace, eq_comm]
  . have hok' : (Place.completing result .load).Ok (s.caller r) (s.sync r) := hok
    simpa [System.complete, System.setPlace] using hok'

/-- The owner begins to complete a request from the queue that it drains. -/
theorem System.Inv.completeQueued [Fintype ρ] (h : s.Inv node) {rest : List ρ} (result : RtErr)
    (hcompleting : s.completing = none) (hphase : s.phase = .drain)
    (hqueue : s.commandMq = some (r :: rest))
    : ({ s with commandMq := some rest }.complete r result).Inv node := by
  obtain ⟨hnodup, hrest, hplace⟩ := h.head hqueue
  have hok := h.request r
  rw [hplace] at hok
  refine h.moves (r := r) ?_ h.cfg h.dead ?_ ?_ ?_ h.executing (.inr (.inl hphase))
  . constructor <;> simp +contextual [System.complete, System.setPlace, hqueue]
  . refine h.placed.complete hcompleting (by simp [hplace, Place.Logged]) rfl rfl rfl hnodup hrest
      ?_ ?_ (fun _ hq => .inr hq)
    . intro q
      refine ⟨fun hq => ⟨?_, hq⟩, And.right⟩
      rintro rfl
      simpa [hplace] using (h.placed.active q).mp hq
    . intro q
      refine ⟨fun hq => ⟨?_, hq⟩, And.right⟩
      rintro rfl
      simpa [hplace] using (h.placed.executing q).mp hq
  . have hok' : (Place.completing result .load).Ok (s.caller r) (s.sync r) := hok
    simpa [System.complete, System.setPlace] using hok'
  . intro hempty
    simp [System.queue, hqueue] at hempty

theorem System.Inv.ownerStep [Fintype ρ] (h : s.Inv node) {accesses : List ρ}
    (hstep : OwnerStep node isCfg s accesses s') : s'.Inv node := by
  cases hstep with
  | complete r result pc hcompleting => exact h.completeStep hcompleting
  | createQueue phase hphase hnext =>
    have hexecuting := h.executing (by simp [hphase])
    have hcompleting := h.completing (by simp [hphase]) (by simp [hphase]) (by simp [hphase])
    have hempty := h.initial hphase
    have hplaced : System.Placed node { s with commandMq := some [], phase := phase } :=
      {
        h.placed with
          nodup := by simp [System.queue]
          queued := by simpa [System.queue, hempty] using h.placed.queued
      }
    obtain rfl | rfl := hnext
    all_goals
      exact
        {
          h with
            placed := hplaced
            latched := by simp [Phase.latched]
            closed := by simp [Phase.closed]
            drained := fun _ => rfl
            executing := fun _ => hexecuting
            completing := fun _ _ _ => hcompleting
            finished := by simp
            initial := by simp
            sends := by simp
        }
  | initFailed hphase =>
    have hexecuting := h.executing (by simp [hphase])
    have hcompleting := h.completing (by simp [hphase]) (by simp [hphase]) (by simp [hphase])
    exact h.advance _ s.commandStopLatched s.commandQuiescing (by simp [Phase.latched])
      (by simp [Phase.closed]) (by simp [Phase.drained]) (fun _ => hexecuting) (fun _ _ _ => hcompleting)
      (by simp) (by simp)
  | openTest hphase =>
    have hexecuting := h.executing (by simp [hphase])
    have hcompleting := h.completing (by simp [hphase]) (by simp [hphase]) (by simp [hphase])
    refine h.advance _ s.commandStopLatched s.commandQuiescing ?_ ?_ ?_ (fun _ => hexecuting)
      (fun _ _ _ => hcompleting) ?_ ?_
    all_goals split <;> simp [Phase.latched, Phase.closed, Phase.drained]
  | openStore hphase =>
    have hexecuting := h.executing (by simp [hphase])
    have hcompleting := h.completing (by simp [hphase]) (by simp [hphase]) (by simp [hphase])
    exact h.advance _ s.commandStopLatched _ (by simp [Phase.latched])
      (by simp [Phase.closed]) (by simp [Phase.drained]) (fun _ => hexecuting) (fun _ _ _ => hcompleting)
      (by simp) (by simp)
  | openCheck hphase =>
    have hexecuting := h.executing (by simp [hphase])
    have hcompleting := h.completing (by simp [hphase]) (by simp [hphase]) (by simp [hphase])
    refine h.advance _ s.commandStopLatched s.commandQuiescing ?_ ?_ ?_ (fun _ => hexecuting)
      (fun _ _ _ => hcompleting) ?_ ?_
    all_goals split <;> simp [Phase.latched, Phase.closed, Phase.drained]
  | openClose hphase =>
    have hexecuting := h.executing (by simp [hphase])
    have hcompleting := h.completing (by simp [hphase]) (by simp [hphase]) (by simp [hphase])
    exact h.advance _ s.commandStopLatched _ (by simp [Phase.latched])
      (by simp [Phase.closed]) (by simp [Phase.drained]) (fun _ => hexecuting) (fun _ _ _ => hcompleting)
      (by simp) (by simp)
  | cfg effect cfg hphase hcompleting hstep horigin =>
    refine h.keeps hcompleting (.inl hphase) hstep ?_
    obtain horigin | ⟨horigin, _⟩ := horigin <;> simp [horigin]
  | dispatch r rest effect cfg hphase hcompleting hexecuting hqueue hcfg hstep horigin haccesses =>
    exact h.takes hcompleting (.inl hphase) hqueue hstep (.inl horigin) haccesses
  | execute r rest hphase hcompleting hexecuting hstack hqueue hcfg =>
    exact h.execute hcompleting hphase hexecuting hqueue
  | executed r result hcompleting hexecuting hstack =>
    exact h.completeExecuted result hcompleting hexecuting
  | leave hphase hcompleting hexecuting hstack =>
    exact h.advance _ s.commandStopLatched s.commandQuiescing (by simp [Phase.latched])
      (by simp [Phase.closed]) (by simp [Phase.drained]) (fun _ => hexecuting) (fun _ _ _ => hcompleting)
      (by simp) (by simp)
  | latch again hphase =>
    have hexecuting := h.executing (by simp [hphase])
    have hcompleting := h.completing (by simp [hphase]) (by simp [hphase]) (by simp [hphase])
    exact h.advance _ _ s.commandQuiescing (fun _ => rfl) (by simpa [Phase.closed, hphase] using h.closed)
      (by simp [Phase.drained]) (fun _ => hexecuting) (fun _ _ _ => hcompleting) (by simp) (by simp)
  | quiesce again hphase =>
    have hexecuting := h.executing (by simp [hphase])
    have hcompleting := h.completing (by simp [hphase]) (by simp [hphase]) (by simp [hphase])
    exact h.advance _ s.commandStopLatched _ (fun _ => h.latched (by simp [hphase, Phase.latched]))
      (by simpa [Phase.closed, hphase] using h.closed)
      (by simp [Phase.drained]) (fun _ => hexecuting) (fun _ _ _ => hcompleting) (by simp) (by simp)
  | wait again hphase hrefs =>
    have hexecuting := h.executing (by simp [hphase])
    have hcompleting := h.completing (by simp [hphase]) (by simp [hphase]) (by simp [hphase])
    refine h.advance _ s.commandStopLatched s.commandQuiescing
      (fun _ => h.latched (by simp [hphase, Phase.latched])) (fun _ => h.not_admitted hrefs) ?_
      (fun _ => hexecuting) (fun _ _ _ => hcompleting) ?_ ?_
    all_goals split <;> simp [Phase.drained]
  | drainCfg r rest effect cfg hphase hcompleting hqueue hcfg hstep horigin haccesses =>
    exact h.takes hcompleting (.inr hphase) hqueue hstep (.inr horigin) haccesses
  | drainOther r rest hphase hcompleting hqueue hcfg =>
    exact h.completeQueued .busy hcompleting hphase hqueue
  | drainEnd hphase hcompleting hqueue =>
    have hexecuting := h.executing (by simp [hphase])
    exact h.advance _ s.commandStopLatched s.commandQuiescing
      (fun _ => h.latched (by simp [hphase, Phase.latched]))
      (fun _ => h.closed (by simp [hphase, Phase.closed])) (fun _ => hqueue) (fun _ => hexecuting)
      (fun _ _ _ => hcompleting) (by simp) (by simp)
  | prepare effect cfg hphase hstep horigin hstack =>
    have hexecuting := h.executing (by simp [hphase])
    have hcompleting := h.completing (by simp [hphase]) (by simp [hphase]) (by simp [hphase])
    obtain ⟨hnone, hdispatched, hactive⟩ := hstep.keeps_teardown h.cfg horigin
    rw [System.afterCfg, hnone]
    have hnext := h.setCfg (by simp [hphase]) hstep hdispatched hactive
    exact hnext.advance .deleteQueue s.commandStopLatched s.commandQuiescing
      (fun _ => h.latched (by simp [hphase, Phase.latched]))
      (fun _ => h.closed (by simp [hphase, Phase.closed]))
      (fun _ => h.drained (by simp [hphase, Phase.drained])) (fun _ => hexecuting)
      (fun _ _ _ => hcompleting) (by simp) (by simp)
  | deleteQueue hphase =>
    have hexecuting := h.executing (by simp [hphase])
    have hclosed := h.closed (by simp [hphase, Phase.closed])
    have hqueued := h.placed.queued
    rw [h.drained (by simp [hphase, Phase.drained])] at hqueued
    exact
      {
        h with
          placed :=
            {
              h.placed with
                nodup := by simp [System.queue]
                queued := hqueued
            }
          latched := fun _ => h.latched (by simp [hphase, Phase.latched])
          closed := fun _ => hclosed
          drained := fun _ => rfl
          executing := fun _ => hexecuting
          completing := by simp
          finished := by simp
          initial := fun _ => rfl
          sends := by
            intro r hr
            simpa [show s.caller r = _ from hr, CallerPc.admitted, PostPc.admitted] using hclosed r
      }
  | destroy effect cfg hphase hcompleting hstep horigin =>
    refine h.keeps hcompleting (.inr hphase) hstep ?_
    obtain horigin | horigin := horigin <;> simp [horigin]
  | finish hphase hcompleting hnmt hstack =>
    have hexecuting := h.executing (by simp [hphase])
    exact h.advance _ s.commandStopLatched s.commandQuiescing
      (fun _ => h.latched (by simp [hphase, Phase.latched]))
      (fun _ => h.closed (by simp [hphase, Phase.closed]))
      (fun _ => h.drained (by simp [hphase, Phase.drained])) (fun _ => hexecuting)
      (fun _ _ _ => hcompleting) (fun _ => ⟨hnmt, hstack⟩) (by simp)

theorem Runs.inv [Fintype ρ] (h : Runs node isCfg s) : s.Inv node := by
  induction h with
  | start h => exact h.inv
  | owner _ hstep ih => exact ih.ownerStep hstep
  | call _ hstep ih => exact ih.callStep hstep

/-- The owner accesses only requests that it has. -/
theorem System.Inv.live_of_access [Fintype ρ] (h : s.Inv node) {accesses : List ρ}
    (hstep : OwnerStep node isCfg s accesses s') (hr : r ∈ accesses) : (s.caller r).live = true := by
  have hactive : s.cfg.cfgActive (node r) = some r → (s.caller r).live = true := by
    intro hactive
    have hplace := (h.placed.active r).mp hactive
    exact (h.request r).live (by simp [hplace]) (by simp [hplace])
  have hkeeps {effect : Effect ρ} {cfg : State ρ} (hstep : Step node s.cfg effect cfg)
      (horigin : effect.origin ≠ .dispatch ∧ effect.origin ≠ .drain) (hr : r ∈ effect.accesses)
      : (s.caller r).live = true := hactive ((hstep.keeps h.cfg horigin).accesses r hr)
  have hqueue {q : ρ} {rest : List ρ} (hqueue : s.commandMq = some (q :: rest)) (hr : r ∈ [q])
      : (s.caller r).live = true := by
    obtain rfl := List.mem_singleton.mp hr
    obtain ⟨_, _, hplace⟩ := h.head hqueue
    exact (h.request r).live (by simp [hplace]) (by simp [hplace])
  cases hstep with
  | complete q result pc hcompleting =>
    obtain rfl := List.mem_singleton.mp hr
    have hplace := (h.placed.completing r result pc).mp hcompleting
    exact (h.request r).live (by simp [hplace]) (by simp [hplace])
  | cfg effect cfg _ _ hstep horigin =>
    refine hkeeps hstep ?_ hr
    obtain horigin | ⟨horigin, _⟩ := horigin <;> simp [horigin]
  | dispatch q rest effect cfg _ _ _ hmq _ _ _ _ => exact hqueue hmq hr
  | execute q rest _ _ _ _ hmq _ => exact hqueue hmq hr
  | executed q result _ hexecuting _ =>
    obtain rfl := List.mem_singleton.mp hr
    have hplace := (h.placed.executing r).mp hexecuting
    exact (h.request r).live (by simp [hplace]) (by simp [hplace])
  | drainCfg q rest effect cfg _ _ hmq _ _ _ _ => exact hqueue hmq hr
  | drainOther q rest _ _ hmq _ => exact hqueue hmq hr
  | prepare effect cfg _ hstep horigin _ => exact hkeeps hstep (by simp [horigin]) hr
  | destroy effect cfg _ _ hstep horigin =>
    refine hkeeps hstep ?_ hr
    obtain horigin | horigin := horigin <;> simp [horigin]
  | _ => simp at hr

omit [DecidableEq ρ] in
/-- When the owner has finished, it has no request any more. -/
theorem System.Inv.completed_of_finished [Fintype ρ] (h : s.Inv node) (hphase : s.phase = .finished)
    (hsent : (s.caller r).unsent = false) : ∃ result, s.place r = .completed result := by
  obtain ⟨hnmt, hstack⟩ := h.finished hphase
  cases hplace : s.place r with
  | unsent =>
    have hok := h.request r
    rw [hplace] at hok
    exact absurd hok.1 (by simp [hsent])
  | queued =>
    have hmem := (h.placed.queued r).mpr hplace
    simp [h.drained (by simp [hphase, Phase.drained])] at hmem
  | active =>
    obtain ⟨m, hm, _⟩ := h.dead hnmt _ r ((h.placed.active r).mpr hplace)
    simp [hstack] at hm
  | executed =>
    have hexecuting := (h.placed.executing r).mpr hplace
    simp [h.executing (by simp [hphase])] at hexecuting
  | completing result pc =>
    have hcompleting := (h.placed.completing r result pc).mpr hplace
    simp [h.completing (by simp [hphase]) (by simp [hphase]) (by simp [hphase])] at hcompleting
  | completed result => exact ⟨result, rfl⟩

omit [DecidableEq ρ] in
/-- A caller that has seen its request done has the result of the completion. -/
theorem System.Inv.logged_of_awake [Fintype ρ] (h : s.Inv node) {result : RtErr}
    (hcaller : (s.caller r = .waitResult ∧ (s.sync r).result = result) ∨ s.caller r = .finiRefs true result
      ∨ s.caller r = .finiDetach true result ∨ s.caller r = .returned true result)
    : (r, result) ∈ s.log := by
  have hok := h.request r
  rw [h.placed.logged]
  cases hplace : s.place r with
  | completing result' pc =>
    rw [hplace] at hok
    cases pc
      <;> obtain ⟨hpc, hresult⟩ | hpc | hpc | hpc := hcaller
      <;> simp_all [Place.Ok, Place.Logged, CallerPc.waiting, CallerPc.awake]
  | unsent | queued | active | executed | completed =>
    rw [hplace] at hok
    obtain ⟨hpc, hresult⟩ | hpc | hpc | hpc := hcaller
      <;> simp_all [Place.Ok, Place.Logged, CallerPc.waiting, CallerPc.awake, CallerPc.unsent, CallerPc.gone]

/--
Every synchronous request that was posted is completed by the end of the cleanup, exactly once, and
every call of `lely_rtt_master_sync_complete` takes effect. A wait ends behind the completion and with its
result. The owner accesses a request only between the send and the end of `lely_rtt_master_sync_fini`, and
never one that was not posted.
-/
theorem sync_request_lifetime [Fintype ρ] (h : Runs node isCfg s)
    : (s.phase = .finished → ∀ r, (s.caller r).unsent = false → ∃ result, (r, result) ∈ s.log)
      ∧ (s.log.map Prod.fst).Nodup
      ∧ (∀ r result, s.completing = some (r, result, .load) →
        (s.sync r).initialized = true ∧ (s.sync r).done = false)
      ∧ (∀ r result, (s.caller r = .waitResult ∧ (s.sync r).result = result)
        ∨ s.caller r = .finiRefs true result ∨ s.caller r = .finiDetach true result
        ∨ s.caller r = .returned true result → (r, result) ∈ s.log)
      ∧ ∀ accesses s' r, OwnerStep node isCfg s accesses s' → r ∈ accesses →
        (s.caller r).live = true := by
  have hinv := h.inv
  refine ⟨?_, hinv.placed.log_nodup, ?_, ?_, ?_⟩
  . intro hphase r hsent
    obtain ⟨result, hplace⟩ := hinv.completed_of_finished hphase hsent
    exact ⟨result, (hinv.placed.logged r result).mpr (.inr (.inr hplace))⟩
  . intro r result hcompleting
    have hok := hinv.request r
    rw [(hinv.placed.completing r result .load).mp hcompleting] at hok
    exact ⟨hok.2.1, hok.2.2.1⟩
  . intro r result hcaller
    exact hinv.logged_of_awake hcaller
  . intro accesses s' r hstep hr
    exact hinv.live_of_access hstep hr

end

/-- A configuration for a node that is not assigned is rejected, and its caller returns. -/
theorem sync_request_lifetime_rejected
    : ∃ s : System Unit, Runs (fun _ => 1) (fun _ => true) s ∧ s.caller () = .returned true .ok
      ∧ ((), .ok) ∈ s.log := by
  let cfg : State Unit :=
    {
      heap := fun _ => {}
      cfgActive := fun _ => none
      cfgResumePending := fun _ => false
      cfgResumeAbortCode := fun _ => 0
      cfgTearingDown := false
      cfgSources := fun _ => none
      masterNmt := true
      canNet := true
      stack := []
      cfgCon := fun _ => none
      download := fun _ => false
      dispatched := []
      completed := []
      staged := []
      ticket := fun _ => none
      passed := []
    }
  let s : System Unit :=
    {
      cfg := cfg
      sync := fun _ => {}
      caller := fun _ => .idle
      commandRefs := 0
      otherRefs := 0
      commandStopLatched := false
      commandQuiescing := true
      commandMq := none
      phase := .init
      executing := none
      completing := none
      place := fun _ => .unsent
      log := []
    }
  have hcfg : Start cfg := by constructor <;> intros <;> rfl
  have hbegin : Begin s := by constructor <;> intros <;> first | exact hcfg | rfl
  have hrun : Runs (fun _ => 1) (fun _ => true) s := .start hbegin
  have hopened := (((hrun.owner (.createQueue .openTest rfl (.inl rfl))).owner (.openTest rfl)).owner
    (.openStore rfl)).owner (.openCheck rfl)
  have hadded := (((hopened.call (.caller () true)).call (.caller () true)).call (.caller () true)).call
    (.caller () true)
  have hsent := (((hadded.call (.caller () true)).call (.caller () true)).call (.caller () true)).call
    (.caller () false)
  have hwaits := (hsent.call (.caller () true)).call (.caller () true)
  have hcompleting := hwaits.owner
    (.dispatch () [] ⟨.dispatch, [()], some ()⟩ _ rfl rfl rfl rfl rfl
      (.dispatchRejected () ⟨false, false, false, false, false⟩ .inval
        ⟨rfl, (List.not_mem_nil : () ∉ ([] : List Unit)), by decide, by decide⟩ rfl) rfl rfl)
  have hdone := (((hcompleting.owner (.complete () .ok .load rfl)).owner
    (.complete () .ok .storeResult rfl)).owner (.complete () .ok .storeRefs rfl)).owner
    (.complete () .ok .storeDone rfl)
  have hreleased := (hdone.owner (.complete () .ok .send rfl)).owner (.complete () .ok .clearRefs rfl)
  have hreturned := (((hreleased.call (.caller () true)).call (.caller () true)).call
    (.caller () true)).call (.caller () true)
  exact ⟨_, hreturned, rfl,
    (sync_request_lifetime hreturned).2.2.2.1 () .ok (.inr (.inr (.inr rfl)))⟩

end LelyRtt.Cfg
