import LelyRtt.Protocol.Clients

/-!
This module contains the code of the owner that leaves the Client-SDOs alone: completion, the lists
of requests, the bookkeeping of NMT and of configurations, and the lifetime counters.
-/

namespace Conc.Prog.All

variable {ι κ α : Type} {P : LelyRtt.Op ι κ → Prop}

theorem exec {o : LelyRtt.Op ι κ} (h : P o) : (LelyRtt.exec o).All P :=
  ⟨h, fun _ => trivial⟩

theorem op {o : LelyRtt.Op ι κ} {f : o.Res → LelyRtt.Owner ι κ α} (h : P o) (hf : ∀ b, (f b).All P)
    : (LelyRtt.exec o >>= f).All P :=
  .bind (exec h) hf

theorem ite_pure {c : Prop} [Decidable c] {p : LelyRtt.Owner ι κ Unit} (h : p.All P)
    : (if c then p else pure ()).All P :=
  .ite h (.ret ())

end Conc.Prog.All

namespace LelyRtt

open Conc

variable {ι κ : Type} {cfg : BuildConfig} {r : ι} {node : Nat}

/-- The code leaves the Client-SDOs alone. -/
abbrev Still {α : Type} (p : Owner ι κ α) : Prop :=
  p.All Op.Still

/-- What a completion of the request does. -/
def Op.Completes (r : ι) : Op ι κ → Prop
  | .loadState r' | .read r' | .setResult r' _ _ _ | .storeCompletionRefs r' _
  | .sendCompletion r' => r' = r
  | .casState r' _ desired => r' = r ∧ desired ≠ .new
  | .addCancelRefs _ => True
  | _ => False

theorem sdoComplete_completes {status : CompletionStatus} {err : RtErr} {ac : BitVec 32}
    : (sdoComplete r status err ac : Owner ι κ Unit).All (Op.Completes r) := by
  have hattempt (state : ReqState)
      : (sdoComplete.attempt r state : Owner ι κ _).All (Op.Completes r) := by
    unfold sdoComplete.attempt
    split
    next => exact .ret _
    next =>
      split
      next =>
        refine .op rfl fun request => ?_
        dsimp only
        have hcas (found : Option ReqState → Owner ι κ (ReqState ⊕ Unit))
            (h : ∀ st, (found st).All (Op.Completes r))
            : (exec (.casState r state (if state = .activeCancelPinned then
              .activeCancelDone else .pendingCancelDone)) >>= found).All (Op.Completes r) :=
          .op ⟨rfl, by split <;> simp⟩ h
        cases request.runtime with
        | true =>
          refine .op trivial fun _ => hcas _ fun found => ?_
          cases found with
          | none => exact .ret _
          | some expected => exact .op trivial fun _ => .ret _
        | false =>
          refine hcas _ fun found => ?_
          cases found <;> exact .ret _
      next =>
        refine .op rfl fun _ => .op ⟨rfl, by simp⟩ fun found => ?_
        cases found with
        | none => exact .op rfl fun _ => .op rfl fun _ => .ret _
        | some expected => exact .op rfl fun _ => .ret _
  unfold sdoComplete
  refine .op rfl fun state => ?_
  split
  . exact .ret _
  . exact .op rfl fun _ => .op rfl fun _ => .loop hattempt

theorem sdoComplete_still {status : CompletionStatus} {err : RtErr} {ac : BitVec 32}
    : Still (sdoComplete r status err ac : Owner ι κ Unit) := by
  apply sdoComplete_completes.mono
  intro o ho
  cases o <;> first | trivial | exact ho.2

theorem sdoClaim_still {desired : ReqState} (hdesired : desired ≠ .new)
    : Still (sdoClaim r desired : Owner ι κ Bool) := by
  unfold sdoClaim
  refine .op hdesired fun found => ?_
  cases found with
  | none => exact .ret _
  | some expected =>
    dsimp only
    split
    . exact .op trivial fun _ => .bind sdoComplete_still fun _ => .ret _
    . exact .ret _

theorem sdoPendingTail_still : Still (sdoPendingTail cfg node : Owner ι κ (Option (Option ι))) := by
  unfold sdoPendingTail
  refine .op trivial fun own => .loop fun s => ?_
  unfold sdoPendingTail.walk
  split
  . exact .ret _
  . exact .ite (.ret _) (.op trivial fun _ => .ret _)

theorem sdoPendingAppend_still : Still (sdoPendingAppend cfg r : Owner ι κ Bool) := by
  unfold sdoPendingAppend
  refine .op trivial fun request => .bind sdoPendingTail_still fun tail => ?_
  cases tail with
  | none => exact .ret _
  | some tail =>
    refine .bind (sdoClaim_still (by simp)) fun _ => .ite ?_ (.ret _)
    refine .op trivial fun _ => ?_
    cases tail with
    | none => exact .op trivial fun _ => .ret _
    | some tail => exact .op trivial fun _ => .ret _

theorem sdoCancelPending_still {id : BitVec 32} : Still (sdoCancelPending node id : Owner ι κ Bool) := by
  have hread (prev : Option ι) : Still (readLink node prev : Owner ι κ (Option ι)) := by
    cases prev <;> exact .op trivial fun _ => .ret _
  have hwrite (prev request : Option ι) : Still (writeLink node prev request : Owner ι κ Unit) := by
    cases prev <;> exact .exec trivial
  unfold sdoCancelPending
  refine .loop fun prev => ?_
  unfold sdoCancelPending.walk
  refine .bind (hread prev) fun cursor => ?_
  cases cursor with
  | none => exact .ret _
  | some r =>
    refine .op trivial fun request => .ite ?_ (.ret _)
    exact .bind (hwrite _ _) fun _ => .op trivial fun _ => .op trivial fun _ =>
      .bind sdoComplete_still fun _ => .ret _

theorem sdoCancelQueued_still : Still (sdoCancelQueued r : Owner ι κ Unit) := by
  unfold sdoCancelQueued
  refine .op trivial fun state => .bind (.loop fun state => ?_) fun code => ?_
  . unfold sdoCancelQueued.attempt
    refine .ite (.ret _) (.ite (.ret _) (.op (show _ ≠ _ by simp) fun found => ?_))
    cases found <;> exact .ret _
  . cases code with
    | none => exact .ret _
    | some ac => exact .op trivial fun _ => sdoComplete_still

theorem sdoCancelDetached_still {head : Option ι} : Still (sdoCancelDetached head : Owner ι κ Unit) := by
  unfold sdoCancelDetached
  refine .loop fun pending => ?_
  unfold sdoCancelDetached.walk
  split
  . exact .ret _
  . exact .op trivial fun _ => .op trivial fun _ => .op trivial fun _ =>
      .bind sdoComplete_still fun _ => .ret _

theorem sdoCancelWaitIdle_still : Still (sdoCancelWaitIdle : Owner ι κ Unit) := by
  refine .loop fun _ => .op trivial fun (refs : Int) => ?_
  exact .ite (.ret _) (.ret _)

theorem setGate_still {e : GateEvent} : Still (setGate e : Owner ι κ Unit) :=
  .exec fun _ => ⟨rfl, rfl⟩

theorem setBooting_still {booting : Bool} : Still (setBooting node booting : Owner ι κ Unit) :=
  .exec fun _ => ⟨rfl, rfl⟩

theorem bootInd_still {st : Nat} : Still (bootInd node st : Owner ι κ Unit) :=
  .ite (.ret _) (.bind setGate_still fun _ => .exec fun _ => ⟨rfl, rfl⟩)

theorem nmtOnSt_still {st : Nat} {boot : BootOutcome} : Still (nmtOnSt node st boot : Owner ι κ Unit) := by
  unfold nmtOnSt
  refine .op trivial fun own => .ite (.ret _) ?_
  cases boot with
  | refused => exact .ret _
  | started => exact setBooting_still
  | finished state => exact .bind setBooting_still fun _ => .bind setBooting_still fun _ => bootInd_still

theorem cfgOnLocalNmtState_still {state : Nat} : Still (cfgOnLocalNmtState state : Owner ι κ Unit) :=
  .ite (.ret _) (.exec fun _ => ⟨rfl, rfl⟩)

theorem nmtSlavesFini_still : Still (nmtSlavesFini : Owner ι κ Unit) :=
  .exec fun _ => ⟨rfl, rfl⟩

theorem localStateInd_still {st : Nat} : Still (localStateInd st : Owner ι κ Unit) :=
  .ite (.bind nmtSlavesFini_still fun _ => cfgOnLocalNmtState_still) cfgOnLocalNmtState_still

theorem localPreop_still {boots : List Nat} : Still (localPreop boots : Owner ι κ Unit) :=
  .bind nmtSlavesFini_still fun _ => .bind cfgOnLocalNmtState_still fun _ => .op trivial fun _ =>
    .exec fun _ => ⟨rfl, rfl⟩

theorem commandAdmissionOpen_still : Still (commandAdmissionOpen : Owner ι κ Unit) := by
  unfold commandAdmissionOpen
  refine .op trivial fun own => .op trivial fun _ => .ite (.ret _) (.op trivial ?_)
  intro (latched : Bool)
  refine .ite (.ret _) (.op trivial fun _ => .op trivial ?_)
  intro (latched : Bool)
  exact .ite_pure (.exec trivial)

theorem commandQuiesceBegin_still : Still (commandQuiesceBegin : Owner ι κ Unit) :=
  .op trivial fun _ => .exec trivial

theorem commandWaitIdle_still : Still (commandWaitIdle : Owner ι κ Unit) := by
  refine .loop fun _ => .op trivial fun (refs : Int) => ?_
  exact .ite (.ret _) (.ret _)

theorem callbacksInit_still : Still (callbacksInit : Owner ι κ Unit) :=
  .op trivial fun _ => .exec trivial

theorem callbacksWaitIdle_still : Still (callbacksWaitIdle : Owner ι κ Unit) := by
  refine .loop fun _ => .op trivial fun (refs : Int) => ?_
  exact .ite (.ret _) (.ret _)

theorem masterFini_still : Still (masterFini : Owner ι κ Unit) :=
  .op (fun _ => ⟨rfl, rfl⟩) fun _ => .exec trivial

theorem cfgComplete_still [DecidableEq κ] {c : κ} : Still (cfgComplete c node : Owner ι κ Unit) :=
  .op trivial fun _ => .ite_pure (.exec fun _ => ⟨rfl, rfl⟩)

theorem cfgCon_still [DecidableEq κ] : Still (cfgCon node : Owner ι κ Unit) := by
  unfold cfgCon
  refine .op trivial fun own => ?_
  split
  . exact .ret _
  . exact cfgComplete_still

theorem commandCancelQueued_still {command : Command ι κ} : Still (commandCancelQueued command) := by
  unfold commandCancelQueued
  split
  . exact sdoCancelQueued_still
  . exact .ret _

end LelyRtt
