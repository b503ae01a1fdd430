import LelyRtt.Run.Completion

/-!
This module contains the result about cancel calls that come before the transfer: a request that such
a call has claimed is never started.
-/

namespace LelyRtt

open Conc

variable {ι κ : Type} [DecidableEq ι] [DecidableEq κ] [Fintype ι] [Fintype κ]
  {cfg : BuildConfig} {lim : Limits} {own own' : Own ι κ} {sh sh' : Shared ι κ} {v v' : View ι}
  {c : Cfg ι κ} {r : ι}

omit [DecidableEq κ] [Fintype ι] [Fintype κ] in
/-- The history of a request only grows, apart from the ends of waits for it. -/
theorem run_hist_mem {o : Op ι κ} (input : Input) (own : Own ι κ) (sh : Shared ι κ) (r : ι)
    {e : ReqEvent} (he : e ∈ sh.hist r) : e ∈ (o.run input own sh).2.2.hist r := by
  cases hwrites : o.writes? with
  | some r' =>
    obtain ⟨request, evs, heq⟩ := run_writes input own sh hwrites
    rw [heq]
    by_cases hr : r = r'
    . subst hr
      simp [Shared.settle, he]
    . simpa [Shared.settle, hr] using he
  | none =>
    cases o with
    | mqReceive by_ =>
      simp only [Op.run]
      split <;> exact he
    | _ => simp_all [Op.run, Op.writes?]

theorem Inv.hist_mem (h : Inv cfg lim own sh v) (hmoved : Moved cfg lim own sh v own' sh' v')
    {e : ReqEvent} (hwait : ∀ err, e ≠ .waitRet err) (he : e ∈ sh.hist r) : e ∈ sh'.hist r := by
  cases hmoved with
  | turn => exact he
  | @exec o input b _ _ _ hexec _ =>
    have hmem := run_hist_mem (o := o) input own sh r he
    rwa [hexec] at hmem
  | env henv =>
    cases henv.move h.requests.possible with
    | poster _ _ _ _ _ hsame | other _ hsame => exact (hsame.hist r e hwait).2 he
    | @app eff pc request evs r' hm heq =>
      subst heq
      obtain ⟨_, hhist, _⟩ := Effect.apply_same cfg r' sh eff
      by_cases hr : r = r'
      . subst hr
        simp [Shared.settle, hhist, he]
      . simpa [Shared.settle, hhist, hr] using he

/--
A cancel call that returns `RT_EOK` after it has claimed a request that was not active prevents its
transfer, whatever the threads do afterwards. When the run is over a request that was posted has the
result of a canceled one.
-/
theorem early_cancel_prevents (hreach : (machine ι κ cfg).Reach (Starts cfg) c)
    (hcancel : canceledEarly (c.sh.hist r)) {c' : Cfg ι κ} (hsteps : (machine ι κ cfg).Steps c c')
    : r ∉ c'.own.started
      ∧ ((c'.sh.heap r).state = .cancelPending
        ∨ (c'.sh.heap r).state = .done ∧ (c'.sh.heap r).Canceled)
      ∧ (.postRet .ok ∈ c'.sh.hist r → Point.finished.rank ≤ c'.own.point.rank →
        (c'.sh.heap r).state = .done ∧ (c'.sh.heap r).Canceled) := by
  obtain ⟨v, hgood⟩ := good_of_reach hreach
  obtain ⟨v', hgood', hcancel'⟩ := steps_induction (P := fun _ sh _ => canceledEarly (sh.hist r)) hgood
    hsteps hcancel (fun _ _ _ _ _ _ hinv hcancel hmoved => hcancel.imp
      (hinv.hist_mem hmoved (by simp)) (hinv.hist_mem hmoved (by simp)))
  have hinv := hgood'.1
  obtain ⟨hst, hstarted⟩ := (hinv.requests r).early (.inl hcancel')
  refine ⟨hstarted, hst, fun hposted hrank => ?_⟩
  have hidle := hinv.pins.point.2.2 (Nat.le_trans (by decide) hrank)
  obtain ⟨hdone, _⟩ := hinv.closed_of_pinsIdle hidle hposted
  rcases hst with hst | hst
  . simp [hst] at hdone
  . exact hst

/-- A request that is canceled while its command is in the queue, and is done soon after. -/
theorem early_cancel_prevents_queued
    : ∃ c c' : Cfg Unit Unit, (machine Unit Unit .small).Reach (Starts .small) c
      ∧ canceledEarly (c.sh.hist ()) ∧ (machine Unit Unit .small).Steps c c'
      ∧ c'.own.started = [] ∧ (c'.sh.heap ()).state = .done ∧ (c'.sh.heap ()).Canceled := by
  obtain ⟨c, hrun, hc⟩ : ∃ c, runAlong .small (Choice.starts ++ Choice.uploads 15 () 5
      ++ List.replicate 3 (.app () .cancel)) (.blank Unit Unit .small) = some c
      ∧ ((runAlong .small (Choice.owners 1 {} ++ Choice.owners 1 { pick := true }
        ++ Choice.owners 30 {}) c).any fun c' => .cancelRet (some .queued) .ok ∈ c.sh.hist ()
          ∧ (c'.sh.heap ()).state = .done) := by
    rw [← Option.any_eq_true]
    decide +kernel
  obtain ⟨c', hrun', hc'⟩ := (Option.any_eq_true ..).1 hc
  simp only [decide_eq_true_eq] at hc'
  have hreach := (Machine.Reach.init (starts_blank Unit Unit .small)).steps (runAlong_sound hrun)
  have hsteps := runAlong_sound hrun'
  obtain ⟨hstarted, hst, _⟩ := early_cancel_prevents hreach (.inl hc'.1) hsteps
  have hdone := hst.resolve_left fun hpending => by cases hpending.symm.trans hc'.2
  refine ⟨c, c', hreach, .inl hc'.1, hsteps, ?_, hdone⟩
  exact List.eq_nil_iff_forall_not_mem.2 fun r hr => hstarted hr

end LelyRtt
