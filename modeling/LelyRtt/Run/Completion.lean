import LelyRtt.Protocol.Trace

/-!
This module contains the results about the completion of requests: `DONE` is set once, by one thread,
which then sends the completion event, and when the command queue is torn down every posted request
is complete.
-/

namespace LelyRtt

open Conc

variable {ι κ : Type} [DecidableEq ι] [DecidableEq κ] [Fintype ι] [Fintype κ]
  {cfg : BuildConfig} {lim : Limits} {own own' : Own ι κ} {sh sh' : Shared ι κ} {v v' : View ι}
  {c c' : Cfg ι κ} {r : ι}

/-- What the application reads once a request is `DONE`. -/
def Request.result (request : Request ι) : CompletionStatus × RtErr × BitVec 32 :=
  (request.completionStatus, request.localError, request.abortCode)

omit [DecidableEq κ] [Fintype ι] [Fintype κ] in
/-- Only one operation of the owner writes a result. -/
theorem run_result {o : Op ι κ} {input : Input} {b : o.Res}
    (hexec : o.run input own sh = (b, own', sh'))
    (ho : ∀ status err ac, o ≠ .setResult r status err ac)
    : (sh'.heap r).result = (sh.heap r).result := by
  have hsh : sh' = (o.run input own sh).2.2 := by rw [hexec]
  subst hsh
  cases o with
  | casState r' expected desired =>
    simp only [Op.run, apply_ite Prod.snd, apply_ite Shared.heap, Shared.note_heap, ite_self,
      Shared.setState]
    split
    . rw [Shared.modify_heap]
      split <;> simp_all [Request.result]
    . rfl
  | mqReceive by_ =>
    simp only [Op.run]
    split <;> rfl
  | storeCompletionRefs r' refs =>
    simp only [Op.run, apply_ite Shared.heap, Shared.note_heap, ite_self, Shared.setCompletionRefs]
    rw [Shared.modify_heap]
    split <;> simp_all [Request.result]
  | setResult r' status err ac =>
    have hne : r ≠ r' := by
      rintro rfl
      exact ho status err ac rfl
    simp [Op.run, Shared.modify_heap, hne]
  | sendCompletion r' | setCancelRequested r' | setBuffer r' | setNext r' =>
    simp only [Op.run, Shared.note_heap, Shared.sendCompletion]
    rw [Shared.modify_heap]
    split <;> simp_all [Request.result]
  | _ => rfl

/-- The owner changes neither the state nor the result of a request that is `DONE`. -/
theorem Inv.exec_done {o : Op ι κ} {input : Input} {b : o.Res} (h : Inv cfg lim own sh v)
    (hexec : o.run input own sh = (b, own', sh')) (hghost : Ghost cfg lim o own sh b v v')
    (hdone : (sh.heap r).state = .done)
    : (sh'.heap r).state = .done ∧ (sh'.heap r).result = (sh.heap r).result := by
  have hterminal (hheld : v.place r ≠ .away) (hpublished : ∀ sent, v.place r ≠ .published sent)
      : False := by
    have hnot := (h.requests r).not_terminal hheld hpublished
    simp [hdone, ReqState.terminal] at hnot
  constructor
  . obtain hst | ⟨expected, desired, rfl, hb, hold, _⟩ := run_state_cases hexec r
    . rw [hst, hdone]
    . cases hghost with
      | look hlooks => simp [Op.looks] at hlooks
      | claimPending hplace | claimActive hplace | claimDoomed hplace | claimTeardown hplace
      | claimFailed hplace | promote _ hplace | promoteFailed hplace | publish hplace
      | publishFailed hplace | stage _ hplace | stageFailed _ hplace =>
        exact (hterminal (by simp [hplace]) (by simp [hplace])).elim
  . apply run_result hexec
    rintro status err ac rfl
    cases hghost with
    | look hlooks => simp [Op.looks] at hlooks
    | setResult hplace =>
      obtain ⟨hheld, hpublished, _⟩ := Place.of_ending? hplace (h.requests r).place_admits
      exact hterminal hheld hpublished

/-- Neither do the other threads. -/
theorem Inv.env_done (h : Inv cfg lim own sh v) (henv : EnvStep cfg sh sh')
    (hdone : (sh.heap r).state = .done)
    : (sh'.heap r).state = .done ∧ (sh'.heap r).result = (sh.heap r).result := by
  have hsame (hsame : SameRequests sh sh')
      : (sh'.heap r).state = .done ∧ (sh'.heap r).result = (sh.heap r).result := by
    obtain ⟨bit, hheap⟩ := hsame.heap r
    rw [hheap]
    exact ⟨hdone, rfl⟩
  cases henv.move h.requests.possible with
  | poster _ _ _ _ _ hsame' => exact hsame hsame'
  | other _ hsame' => exact hsame hsame'
  | @app eff pc request evs r' hm heq =>
    subst heq
    obtain ⟨hheap, _⟩ := Effect.apply_same cfg r' sh eff
    by_cases hr : r = r'
    . subst hr
      rw [Shared.settle_heap_self]
      have hadmits := (h.requests r).pc_admits
      generalize sh.app r = old at hm hadmits
      generalize sh.heap r = oldRequest at hm hdone hadmits ⊢
      rw [hdone] at hadmits
      cases hm with
      | postFill | postQueued | postNew | postClear =>
        simp [AppPc.admits] at hadmits
      | pin hst => cases hkind : ‹PinKind› <;> simp_all [PinKind.base]
      | cancelQueued hst => simp [hdone] at hst
      | @unpinWake _ ctx _ hst | @unpin _ ctx _ hst | @unpinRet _ ctx _ hst | @unpinDone _ ctx _ hst =>
        cases hkind : ctx.kind <;> simp_all [PinKind.pinned, PinKind.staged]
      | _ => exact ⟨hdone, rfl⟩
    . simp [Shared.settle, hheap, hr, hdone]

/-- A request that is `DONE` stays so, with its result. -/
theorem done_of_steps (hgood : (logic ι κ cfg .none).Good c) (hsteps : (machine ι κ cfg).Steps c c')
    (hdone : (c.sh.heap r).state = .done)
    : (c'.sh.heap r).state = .done ∧ (c'.sh.heap r).result = (c.sh.heap r).result := by
  obtain ⟨v, hv⟩ := hgood
  have hrun := steps_induction (P := fun _ sh _ => (sh.heap r).state = .done
    ∧ (sh.heap r).result = (c.sh.heap r).result) hv hsteps ⟨hdone, rfl⟩ ?_
  . exact hrun.choose_spec.2
  . rintro own sh v own' sh' v' hinv ⟨hdone, hresult⟩ hmoved
    have hstep : (sh'.heap r).state = .done ∧ (sh'.heap r).result = (sh.heap r).result := by
      cases hmoved with
      | turn => exact ⟨hdone, rfl⟩
      | env henv => exact hinv.env_done henv hdone
      | exec hexec hghost => exact hinv.exec_done hexec hghost hdone
    exact ⟨hstep.1, hstep.2.trans hresult⟩

omit [DecidableEq ι] [Fintype ι] in
/-- The state of a request and how far its completion has come. -/
theorem ReqOk.completion_eq {place : Place} {pc : AppPc} {request : Request ι}
    {hist : List ReqEvent} {queued started : Prop} (h : ReqOk place pc request hist queued started)
    : completion hist ≠ .broken ∧ (request.state = .done ↔ completion hist ≠ .unset) := by
  have hfits := h.completion_fits
  unfold Completion.Fits at hfits
  split at hfits
  next hdone =>
    simp only [hdone, true_iff]
    split at hfits
    . simp [hfits]
    . simp [hfits]
    . split at hfits
      . simp [hfits]
      . simp [hfits]
      . obtain ⟨who, hclosed⟩ := hfits
        simp [hclosed]
  next hdone => simp [hfits, hdone]

/-- When the command queue is torn down a posted request is complete. -/
theorem Inv.closed_of_pinsIdle (h : Inv cfg lim own sh v) (hidle : v.phase.pinsIdle = true)
    (hposted : .postRet .ok ∈ sh.hist r)
    : (sh.heap r).state = .done ∧ ∃ who, completion (sh.hist r) = .closed who := by
  obtain ⟨hdrained, _, haway, hrefs⟩ := h.pins.pinsIdle hidle
  obtain ⟨hnew, hsent⟩ := (h.requests r).posted hposted
  obtain ⟨hstaged, hpublishing⟩ := h.pins.cancelWeight_eq_zero hrefs r
  have hdone : (sh.heap r).state = .done := by
    -- a request that waits for the owner would have its command in the queue
    have hqueued : ¬((sh.heap r).state = .queued ∨ (sh.heap r).state = .cancelPending) := by
      intro hst
      have hmem := (h.requests r).queued_iff.mpr ⟨haway r, hst, hsent⟩
      rw [h.empty_queue (.inr hdrained)] at hmem
      cases hmem
    have hadmits := (h.requests r).place_admits
    rw [haway r] at hadmits
    simp only [not_or] at hqueued
    simpa [Place.admits, hnew, hqueued, ReqState.terminal, hstaged] using hadmits
  refine ⟨hdone, ?_⟩
  have hfits := (h.requests r).completion_fits
  simp only [Completion.Fits, hdone, ↓reduceIte, haway r] at hfits
  revert hfits hpublishing
  cases sh.app r <;> simp [AppPc.publishing]

/--
Exactly-once completion of a posted request. Its state changes to `DONE` once and stays there with
its result; the event is sent once, by the thread that set `DONE`, before it returns its completion
reference; and after `lely_rtt_master_command_fini` the request is `DONE` and its event is sent.
-/
theorem completion_exactly_once (hreach : (machine ι κ cfg).Reach (Starts cfg) c)
    (hposted : .postRet .ok ∈ c.sh.hist r)
    : CompletesOnce (c.sh.hist r)
      ∧ ((c.sh.heap r).state = .done ↔ ∃ who, .setDone who ∈ c.sh.hist r)
      ∧ (∀ c', (machine ι κ cfg).Steps c c' → (c.sh.heap r).state = .done →
        (c'.sh.heap r).state = .done ∧ (c'.sh.heap r).result = (c.sh.heap r).result)
      ∧ (Point.finished.rank ≤ c.own.point.rank →
        (c.sh.heap r).state = .done ∧ ∃ who, .sendDone who ∈ c.sh.hist r) := by
  have hgood := good_of_reach hreach
  obtain ⟨v, hinv, _⟩ := id hgood
  obtain ⟨hbroken, hdone⟩ := (hinv.requests r).completion_eq
  refine ⟨completesOnce_of_completion hbroken, ?_, fun c' => done_of_steps hgood, ?_⟩
  . rw [hdone]
    simp only [mem_of_completion hbroken (e := .setDone _) rfl (by simp)]
    cases hcompletion : completion (c.sh.hist r) with
    | broken => exact absurd hcompletion hbroken
    | _ => simp [Completion.seen, Completion.steps]
  . intro hrank
    have hidle := hinv.pins.point.2.2 (Nat.le_trans (by decide) hrank)
    obtain ⟨hdone, who, hclosed⟩ := hinv.closed_of_pinsIdle hidle hposted
    refine ⟨hdone, who, ?_⟩
    rw [mem_of_completion hbroken rfl (by simp), hclosed]
    simp [Completion.seen, Completion.steps]

/-- A request that is posted while the owner waits, and whose run then ends. -/
theorem completion_exactly_once_drained
    : ∃ c : Cfg Unit Unit, (machine Unit Unit .small).Reach (Starts .small) c
      ∧ .postRet .ok ∈ c.sh.hist () ∧ c.own.point = .finished
      ∧ (c.sh.heap ()).state = .done ∧ ∃ who, .sendDone who ∈ c.sh.hist () := by
  obtain ⟨c, hreach, hposted, _, _, _, hpoint, _⟩ := reach_destroyed
  exact ⟨c, hreach, hposted, hpoint,
    (completion_exactly_once hreach hposted).2.2.2 (by rw [hpoint])⟩

end LelyRtt
