import LelyRtt.Protocol.App
import LelyRtt.Protocol.View

/-!
This module contains what the operations of the owner leave unchanged.
-/

namespace LelyRtt

open Conc

variable {ι κ : Type} [DecidableEq ι]

namespace Shared

variable (sh : Shared ι κ) (r r' : ι)

theorem modify_heap (f : Request ι → Request ι)
    : (sh.modify r f).heap r' = if r' = r then f (sh.heap r) else sh.heap r' := by
  simp [modify, Function.update_apply]

@[simp]
theorem setNext_state (next : Option ι)
    : ((sh.modify r fun request => { request with next := next }).heap r').state
      = (sh.heap r').state := by
  rw [modify_heap]
  split <;> simp_all

@[simp]
theorem note_heap (e : ReqEvent) : (sh.note r e).heap = sh.heap := by
  simp [note]

end Shared

/-- The request of a command that starts one. -/
def Command.sdo? : Command ι κ → Option ι
  | .sdo r => some r
  | _ => none

variable {o : Op ι κ} (input : Input) (own : Own ι κ) (sh : Shared ι κ)

/-- The operation is none of those that write the slots, the Client-SDOs or the bookkeeping. -/
def Op.keepsSlots : Op ι κ → Bool
  | .setActive _ _ | .setPending _ _ | .setCsdo _ _ | .setMisc _ => false
  | _ => true

theorem run_slots (ho : o.keepsSlots)
    : (o.run input own sh).2.1.sdoActive = own.sdoActive
      ∧ (o.run input own sh).2.1.sdoPending = own.sdoPending
      ∧ (o.run input own sh).2.1.csdo = own.csdo
      ∧ (o.run input own sh).2.1.misc = own.misc := by
  cases o with
  | casState r expected desired =>
    simp only [Op.run]
    split <;> split <;> simp
  | mqReceive by_ =>
    simp only [Op.run]
    split <;> simp
  | setActive | setPending | setCsdo | setMisc => simp [Op.keepsSlots] at ho
  | _ => simp [Op.run]

theorem run_next (ho : ∀ r next, o ≠ .setNext r next) (r : ι)
    : ((o.run input own sh).2.2.heap r).next = (sh.heap r).next := by
  cases o with
  | casState r' expected desired =>
    simp only [Op.run, apply_ite Prod.snd, apply_ite Shared.heap, Shared.note_heap, ite_self,
      Shared.setState]
    split
    . rw [Shared.modify_heap]
      split <;> simp_all
    . rfl
  | mqReceive by_ =>
    simp only [Op.run]
    split <;> simp
  | storeCompletionRefs r' refs =>
    simp only [Op.run, apply_ite Shared.heap, Shared.note_heap, ite_self, Shared.setCompletionRefs]
    rw [Shared.modify_heap]
    split <;> simp_all
  | sendCompletion r' | setResult r' | setCancelRequested r' | setBuffer r' =>
    simp only [Op.run, Shared.note_heap, Shared.sendCompletion]
    rw [Shared.modify_heap]
    split <;> simp_all
  | setNext r' next => exact absurd rfl (ho r' next)
  | _ => simp [Op.run]

/-- The operation writes to a request. -/
def Op.writes? : Op ι κ → Option ι
  | .casState r _ _ | .storeCompletionRefs r _ | .sendCompletion r | .setResult r _ _ _
  | .setCancelRequested r | .setNext r _ | .setBuffer r _ _ => some r
  | _ => none

/-- An operation on a request writes nothing else that is shared. -/
theorem run_writes {r : ι} (ho : o.writes? = some r)
    : ∃ request evs, (o.run input own sh).2.2 = sh.settle r (sh.app r) request evs := by
  cases o with
  | casState r' expected desired =>
    cases ho
    by_cases hst : (sh.heap r).state = expected
    . simp only [Op.run, if_pos hst, Shared.setState, Shared.modify_eq, Shared.note_eq,
        Shared.settle_settle, Shared.settle_app_self]
      split <;> exact ⟨_, _, rfl⟩
    . simp only [Op.run, if_neg hst]
      exact ⟨_, _, sh.settle_self r⟩
  | storeCompletionRefs r' refs =>
    cases ho
    simp only [Op.run]
    split
    . exact ⟨_, _, by rw [Shared.setCompletionRefs, Shared.modify_eq, Shared.note_eq,
        Shared.settle_settle, Shared.settle_app_self]⟩
    . exact ⟨_, _, by rw [Shared.setCompletionRefs, Shared.modify_eq]⟩
  | sendCompletion r' =>
    cases ho
    exact ⟨_, _, by rw [Op.run, Shared.sendCompletion, Shared.modify_eq, Shared.note_eq,
      Shared.settle_settle, Shared.settle_app_self]⟩
  | setResult r' =>
    cases ho
    exact ⟨_, _, by rw [Op.run, Shared.modify_eq, Shared.note_eq, Shared.settle_settle,
      Shared.settle_app_self]⟩
  | setCancelRequested r' | setNext r' | setBuffer r' =>
    cases ho
    exact ⟨_, _, by rw [Op.run, Shared.modify_eq]⟩
  | _ => simp [Op.writes?] at ho

/-- The program points, the history of the commands and the counter of posts are not the owner's. -/
theorem run_threads
    : (o.run input own sh).2.2.app = sh.app
      ∧ (o.run input own sh).2.2.poster = sh.poster
      ∧ (o.run input own sh).2.2.sent = sh.sent
      ∧ (o.run input own sh).2.2.returned = sh.returned
      ∧ (o.run input own sh).2.2.commandRefs = sh.commandRefs := by
  cases hwrites : o.writes? with
  | some r =>
    obtain ⟨request, evs, heq⟩ := run_writes input own sh hwrites
    simp [heq, Shared.settle]
  | none =>
    cases o with
    | mqReceive by_ =>
      simp only [Op.run]
      split <;> simp
    | _ => simp_all [Op.run, Op.writes?]

/-- Only the owner's wait for its event consumes it. -/
theorem run_event (ho : o ≠ .receive)
    : (o.run input own sh).2.2.eventCommand = sh.eventCommand := by
  cases hwrites : o.writes? with
  | some r =>
    obtain ⟨request, evs, heq⟩ := run_writes input own sh hwrites
    simp [heq, Shared.settle]
  | none =>
    cases o with
    | mqReceive by_ =>
      simp only [Op.run]
      split <;> simp
    | _ => simp_all [Op.run, Op.writes?]

/-- Only a write to a slot for active transfers is recorded as an activation. -/
theorem run_activated (ho : ∀ node request, o ≠ .setActive node request)
    : (o.run input own sh).2.1.activated = own.activated := by
  cases o with
  | casState r expected desired =>
    simp only [Op.run]
    split <;> split <;> simp
  | mqReceive by_ =>
    simp only [Op.run]
    split <;> simp
  | setActive node request => exact absurd rfl (ho node request)
  | _ => simp [Op.run]

/-- The operation is none of those that touch the counters for canceling threads. -/
def Op.keepsPins : Op ι κ → Bool
  | .casState _ _ _ | .addCancelRefs _ | .storeCallbackRefs | .storeCallbackQuiescing _ | .mark _ =>
    false
  | _ => true

theorem run_pins (ho : o.keepsPins)
    : (o.run input own sh).2.1.pinStage = own.pinStage
      ∧ (o.run input own sh).2.1.point = own.point
      ∧ (o.run input own sh).2.2.sdoCancelRefs = sh.sdoCancelRefs
      ∧ (o.run input own sh).2.2.callbackRefs = sh.callbackRefs
      ∧ (o.run input own sh).2.2.callbackQuiescing = sh.callbackQuiescing := by
  cases hwrites : o.writes? with
  | some r =>
    obtain ⟨request, evs, heq⟩ := run_writes input own sh hwrites
    cases o <;> simp_all [Op.run, Op.writes?, Op.keepsPins, Shared.settle]
  | none =>
    cases o with
    | mqReceive by_ =>
      simp only [Op.run]
      split <;> simp
    | _ => simp_all [Op.run, Op.writes?, Op.keepsPins]

theorem run_state (ho : ∀ r expected desired, o ≠ .casState r expected desired) (r : ι)
    : ((o.run input own sh).2.2.heap r).state = (sh.heap r).state := by
  cases o with
  | casState r' expected desired => exact absurd rfl (ho r' expected desired)
  | mqReceive by_ =>
    simp only [Op.run]
    split <;> simp
  | storeCompletionRefs r' refs =>
    simp only [Op.run, apply_ite Shared.heap, Shared.note_heap, ite_self, Shared.setCompletionRefs]
    rw [Shared.modify_heap]
    split <;> simp_all
  | sendCompletion r' | setResult r' | setCancelRequested r' | setBuffer r' | setNext r' =>
    simp only [Op.run, Shared.note_heap, Shared.sendCompletion]
    rw [Shared.modify_heap]
    split <;> simp_all
  | _ => simp [Op.run]

/-- The owner writes neither the identity of a request nor its runtime. -/
theorem run_ident (r : ι)
    : ((o.run input own sh).2.2.heap r).requestId = (sh.heap r).requestId
      ∧ ((o.run input own sh).2.2.heap r).nodeId = (sh.heap r).nodeId
      ∧ ((o.run input own sh).2.2.heap r).runtime = (sh.heap r).runtime := by
  cases o with
  | casState r' expected desired =>
    simp only [Op.run, apply_ite Prod.snd, apply_ite Shared.heap, Shared.note_heap, ite_self,
      Shared.setState]
    split
    . rw [Shared.modify_heap]
      split <;> simp_all
    . exact ⟨rfl, rfl, rfl⟩
  | mqReceive by_ =>
    simp only [Op.run]
    split <;> simp
  | storeCompletionRefs r' refs =>
    simp only [Op.run, apply_ite Shared.heap, Shared.note_heap, ite_self, Shared.setCompletionRefs]
    rw [Shared.modify_heap]
    split <;> simp_all
  | sendCompletion r' | setResult r' | setCancelRequested r' | setBuffer r' | setNext r' =>
    simp only [Op.run, Shared.note_heap, Shared.sendCompletion]
    rw [Shared.modify_heap]
    split <;> simp_all
  | _ => simp [Op.run]

/-- The operation is none of those that touch the command queue or its admission latch. -/
def Op.keepsCommands : Op ι κ → Bool
  | .mqCreate | .mqReceive _ | .mqDelete | .storeStopLatched => false
  | _ => true

theorem run_commands (ho : o.keepsCommands)
    : (o.run input own sh).2.1.taken = own.taken
      ∧ (o.run input own sh).2.2.commandMq = sh.commandMq
      ∧ (o.run input own sh).2.2.commandStopLatched = sh.commandStopLatched := by
  cases hwrites : o.writes? with
  | some r =>
    obtain ⟨request, evs, heq⟩ := run_writes input own sh hwrites
    refine ⟨?_, by simp [heq, Shared.settle]⟩
    cases o with
    | casState r expected desired =>
      simp only [Op.run]
      split <;> split <;> rfl
    | _ => simp_all [Op.run, Op.writes?]
  | none => cases o <;> simp_all [Op.run, Op.writes?, Op.keepsCommands]

variable {input own sh} {own' : Own ι κ} {sh' : Shared ι κ}

theorem run_looks {v : View ι} {b : o.Res} (h : o.run input own sh = (b, own', sh'))
    (ho : o.looks v) : own = own' ∧ sh = sh' := by
  cases o <;> simp only [Op.looks] at ho <;> cases h <;> exact ⟨rfl, rfl⟩

theorem run_loadState {r : ι} {st : ReqState}
    (h : (Op.loadState r).run input own sh = (st, own', sh'))
    : (sh.heap r).state = st ∧ own = own' ∧ sh = sh' :=
  ⟨congrArg Prod.fst h, Prod.mk.inj (congrArg Prod.snd h)⟩

theorem run_loadCommandRefs {refs : Int}
    (h : Op.loadCommandRefs.run input own sh = (refs, own', sh'))
    : sh.commandRefs = refs ∧ own = own' ∧ sh = sh' :=
  ⟨congrArg Prod.fst h, Prod.mk.inj (congrArg Prod.snd h)⟩

theorem run_loadCancelRefs {refs : Int}
    (h : Op.loadCancelRefs.run input own sh = (refs, own', sh'))
    : sh.sdoCancelRefs = refs ∧ own = own' ∧ sh = sh' :=
  ⟨congrArg Prod.fst h, Prod.mk.inj (congrArg Prod.snd h)⟩

theorem run_mqExists {exists_ : Bool}
    (h : Op.mqExists.run input own sh = (exists_, own', sh'))
    : sh.commandMq.isSome = exists_ ∧ own = own' ∧ sh = sh' :=
  ⟨congrArg Prod.fst h, Prod.mk.inj (congrArg Prod.snd h)⟩

theorem run_mqReceive_some {by_ : TakenBy} {command : Command ι κ}
    (h : (Op.mqReceive by_).run input own sh = ((some command : Option (Command ι κ)), own', sh'))
    : ∃ entry rest, sh.queue = entry :: rest ∧ entry.command = command
      ∧ own' = { own with taken := own.taken ++ [(by_, entry)] }
      ∧ sh' = { sh with commandMq := some rest } := by
  simp only [Op.run] at h
  split at h
  next => cases h
  next entry rest hqueue =>
    cases h
    exact ⟨entry, rest, hqueue, rfl, rfl, rfl⟩

theorem run_mqReceive_none {by_ : TakenBy}
    (h : (Op.mqReceive by_).run input own sh = ((none : Option (Command ι κ)), own', sh'))
    : sh.queue = [] ∧ own = own' ∧ sh = sh' := by
  simp only [Op.run] at h
  split at h
  next hqueue =>
    cases h
    exact ⟨hqueue, rfl, rfl⟩
  next => cases h

theorem run_casState_none {r : ι} {expected desired : ReqState}
    (h : (Op.casState r expected desired).run input own sh
      = ((none : Option ReqState), own', sh'))
    : (sh.heap r).state = expected
      ∧ own' = (if desired.staged then { own with pinStage := .none } else own)
      ∧ sh' = if desired = .done then (sh.setState r desired).note r (.setDone .owner)
          else sh.setState r desired := by
  simp only [Op.run] at h
  split at h
  next hst =>
    cases h
    exact ⟨hst, rfl, rfl⟩
  next => cases h

theorem run_casState_some {r : ι} {expected desired st : ReqState}
    (h : (Op.casState r expected desired).run input own sh
      = ((some st : Option ReqState), own', sh'))
    : (sh.heap r).state ≠ expected ∧ (sh.heap r).state = st
      ∧ own' = (if desired.staged then { own with pinStage := .afterFailedCas } else own)
      ∧ sh = sh' := by
  simp only [Op.run] at h
  split at h
  next => cases h
  next hst =>
    cases h
    exact ⟨hst, rfl, rfl, rfl⟩

/-- Only a compare-exchange that succeeds changes a state. -/
theorem run_state_cases {b : o.Res} (h : o.run input own sh = (b, own', sh')) (r : ι)
    : (sh'.heap r).state = (sh.heap r).state
      ∨ ∃ expected desired, o = .casState r expected desired ∧ HEq b (none : Option ReqState)
        ∧ (sh.heap r).state = expected ∧ (sh'.heap r).state = desired := by
  by_cases ho : ∀ r expected desired, o ≠ .casState r expected desired
  . left
    have hstate := run_state input own sh ho r
    simpa only [h] using hstate
  . push Not at ho
    obtain ⟨r', expected, desired, rfl⟩ := ho
    cases b with
    | none =>
      obtain ⟨hst, _, rfl⟩ := run_casState_none h
      by_cases heq : r = r'
      . subst heq
        refine .inr ⟨expected, desired, rfl, HEq.rfl, hst, ?_⟩
        split <;> simp [Shared.setState, Shared.modify_heap]
      . left
        split <;> simp [Shared.setState, Shared.modify_heap, heq]
    | some st =>
      obtain ⟨_, _, _, rfl⟩ := run_casState_some h
      exact .inl rfl

end LelyRtt
