import LelyRtt.Protocol.Trace
import Mathlib.Algebra.BigOperators.Ring.Finset

/-!
This module contains the results about `sdo_cancel_refs`: what it counts, and that the cancel calls
which still use the runtime after the cleanup has waited for it hold another reference.
-/

namespace LelyRtt

open Conc

variable {ι κ : Type} [DecidableEq ι] [DecidableEq κ] [Fintype ι] [Fintype κ]
  {cfg : BuildConfig} {lim : Limits} {own own' : Own ι κ} {sh sh' : Shared ι κ} {v v' : View ι}
  {c : Cfg ι κ} {r : ι}

/-- The next step of the cancel call accesses the runtime. -/
def AppPc.usesRuntime : AppPc → Bool
  | .callbackLoad _ | .callbackAdd _ | .callbackCheck _ | .callbackUndo _ | .cancelCommand _ _
  | .unpinSub _ _ | .wake _ _ | .callbackRelease _ _ => true
  | _ => false

/-- The cancel call has raised `command_refs` and not lowered it yet. -/
def AppPc.holdsCommand : AppPc → Bool
  | .cancelCommand _ pc => pc.counted
  | _ => false

/-- How many requests are staged. -/
def Shared.stagedCount (sh : Shared ι κ) : Nat :=
  (Finset.univ.filter fun r => (sh.heap r).state.staged).card

/-- How many cancel calls have published a staged request and not lowered `sdo_cancel_refs` yet. -/
def Shared.publishingCount (sh : Shared ι κ) : Nat :=
  (Finset.univ.filter fun r => (sh.app r).publishing.isSome).card

namespace Pins

omit [DecidableEq ι] [DecidableEq κ] [Fintype κ]

theorem cancelRefs_eq_count (h : Pins own sh v)
    : sh.sdoCancelRefs = sh.stagedCount + sh.publishingCount + own.pinStage.weight := by
  rw [h.cancelRefs_eq]
  simp only [total, cancelWeight, Finset.sum_add_distrib, Shared.stagedCount,
    Shared.publishingCount, Finset.sum_boole]

theorem cancelRefs_nonneg (h : Pins own sh v) : 0 ≤ sh.sdoCancelRefs := by
  have hweight : 0 ≤ own.pinStage.weight := by cases own.pinStage <;> simp [PinStage.weight]
  have hrefs := h.cancelRefs_eq_count
  omega

end Pins

/-- After the wait for the cancel calls one that uses the runtime holds another reference. -/
theorem Inv.holds_of_pinsIdle (h : Inv cfg lim own sh v) (hidle : v.phase.pinsIdle = true)
    (huses : (sh.app r).usesRuntime) : (sh.app r).holdsCallback ∨ (sh.app r).holdsCommand := by
  obtain ⟨_, _, haway, hrefs⟩ := h.pins.pinsIdle hidle
  obtain ⟨hstaged, hpublishing⟩ := h.pins.cancelWeight_eq_zero hrefs r
  have hadmits := (h.requests r).place_admits
  rw [haway r] at hadmits
  have hpinned (kind : PinKind)
      : ¬((sh.heap r).state = kind.pinned ∨ (sh.heap r).state = kind.staged) := by
    rintro (hst | hst) <;> rw [hst] at hadmits hstaged <;> cases kind
      <;> revert hadmits hstaged <;> decide
  have hpc := (h.requests r).pc_admits
  have hpinOk := h.pins.pinOk r
  revert huses hpc hpublishing hpinOk
  -- only the rest of a call that has restored the state of its request is left
  cases sh.app r <;> simp [AppPc.usesRuntime, AppPc.admits, AppPc.publishing, AppPc.pinOk, hpinned,
    AppPc.holdsCallback]
  all_goals exact fun _ _ hpin => .inl hpin

omit [Fintype ι] [Fintype κ] in
theorem Moved.pinsIdle_mono (h : Moved cfg lim own sh v own' sh' v')
    (hidle : v.phase.pinsIdle = true) : v'.phase.pinsIdle = true := by
  cases h with
  | turn | env => exact hidle
  | exec _ hghost =>
    cases hghost <;> first | exact hidle | rfl

/--
`sdo_cancel_refs` counts the staged requests, the cancel calls that have published one and not
lowered the counter yet, and the owner from its increment until it has handed the reference over or
taken it back. After `lely_rtt_master_sdo_cancel_wait_idle` a cancel call that uses the runtime holds
a callback or a command reference.
-/
theorem cancelRefs_accounted (hreach : (machine ι κ cfg).Reach (Starts cfg) c)
    : c.sh.sdoCancelRefs = c.sh.stagedCount + c.sh.publishingCount
        + (if c.own.pinStage = .none then 0 else 1)
      ∧ 0 ≤ c.sh.sdoCancelRefs
      ∧ (Point.cancelsIdle.rank ≤ c.own.point.rank → ∀ c' : Cfg ι κ,
        (machine ι κ cfg).Steps c c' → ∀ r, (c'.sh.app r).usesRuntime →
          (c'.sh.app r).holdsCallback ∨ (c'.sh.app r).holdsCommand) := by
  obtain ⟨v, hgood⟩ := good_of_reach hreach
  have hinv := hgood.1
  refine ⟨?_, hinv.pins.cancelRefs_nonneg, ?_⟩
  . rw [hinv.pins.cancelRefs_eq_count]
    cases c.own.pinStage <;> simp [PinStage.weight]
  . intro hrank c' hsteps r huses
    obtain ⟨v', hgood', hidle⟩ := steps_induction (P := fun _ _ v => v.phase.pinsIdle = true) hgood
      hsteps (hinv.pins.point.2.2 hrank)
      (fun _ _ _ _ _ _ _ hidle hmoved => hmoved.pinsIdle_mono hidle)
    exact hgood'.1.holds_of_pinsIdle hidle huses

/-- A confirmation that finds its request pinned by a cancel call leaves it to that call. -/
theorem cancelRefs_accounted_staged
    : ∃ c : Cfg Unit Unit, (machine Unit Unit .small).Reach (Starts .small) c
      ∧ (c.sh.heap ()).state = .activeCancelDone ∧ c.sh.sdoCancelRefs = 1 := by
  obtain ⟨c, hreach, hc⟩ := reach_of_runAlong (starts_blank Unit Unit .small)
    (Choice.starts ++ Choice.uploads 15 () 5 ++ Choice.dispatches
      ++ Choice.owners 18 { pick := true, outcome := .started }
      ++ List.replicate 3 (.app () .cancel)
      ++ Choice.owners 23 { work := .confirm (.predefined 5) 0 [] true })
    (fun c => (c.sh.heap ()).state = .activeCancelDone ∧ c.sh.stagedCount = 1
      ∧ c.sh.publishingCount = 0 ∧ c.own.pinStage = .none) (by decide +kernel)
  simp only [decide_eq_true_eq] at hc
  obtain ⟨hstate, hstaged, hpublishing, hpinStage⟩ := hc
  refine ⟨c, hreach, hstate, ?_⟩
  rw [(cancelRefs_accounted hreach).1, hstaged, hpublishing, if_pos hpinStage]
  rfl

/--
The owner still counts after its compare-exchange has failed: an upload is confirmed while its
request is pinned, and the cancel call restores the state between the increment and the
compare-exchange.
-/
theorem cancelRefs_after_failed_cas
    : ¬∀ c : Cfg Unit Unit, (machine Unit Unit .small).Reach (Starts .small) c →
      c.sh.sdoCancelRefs = c.sh.stagedCount + c.sh.publishingCount
        + (if c.own.pinStage = .beforeCas then 1 else 0) := by
  intro hall
  obtain ⟨c, hreach, hc⟩ := reach_of_runAlong (starts_blank Unit Unit .small)
    (Choice.starts ++ Choice.uploads 15 () 5 ++ Choice.dispatches
      ++ Choice.owners 18 { pick := true, outcome := .started }
      ++ List.replicate 3 (.app () .cancel)
      ++ Choice.owners 20 { work := .confirm (.predefined 5) 0 [] true }
      ++ List.replicate 11 (.app () .cancel) ++ Choice.owners 3 {})
    (fun c => c.own.pinStage = .afterFailedCas) (by decide +kernel)
  simp only [decide_eq_true_eq] at hc
  have hclaim := hall c hreach
  obtain ⟨v, hinv, _⟩ := good_of_reach hreach
  have hcount := hinv.pins.cancelRefs_eq_count
  rw [hc] at hclaim hcount
  simp only [PinStage.weight, reduceCtorEq, ↓reduceIte] at hclaim hcount
  omega

end LelyRtt
