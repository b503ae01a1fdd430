import LelyRtt.Protocol.Inv

/-!
This module contains what stays of a request once its post has handed it over: the node and the id
that it was posted with.
-/

namespace LelyRtt

open Conc

variable {ι κ : Type} [DecidableEq ι] [DecidableEq κ]

/-- The post of the request has put its command into the queue. -/
def Shared.Posted (sh : Shared ι κ) (r : ι) : Prop :=
  (sh.heap r).state ≠ .new ∧ (sh.app r).unsent = false

/-- The request is handed over, and the step keeps what it was posted with. -/
def Shared.KeepsPosted (sh sh' : Shared ι κ) (r : ι) : Prop :=
  sh.Posted r → sh'.Posted r ∧ (sh'.heap r).nodeId = (sh.heap r).nodeId
    ∧ (sh'.heap r).requestId = (sh.heap r).requestId

theorem ReqOk.move_posted_keeps {cfg : BuildConfig} {r : ι} {sh : Shared ι κ} {place : Place}
    {pc pc' : AppPc} {request request' : Request ι} {hist : List ReqEvent} {queued started : Prop}
    {eff : Effect ι κ} {evs : List ReqEvent}
    (h : ReqOk place pc request hist queued started)
    (hm : AppMove cfg r sh pc request eff pc' request' evs) (hnew : request.state ≠ .new)
    (hunsent : pc.unsent = false)
    : (request'.state ≠ .new ∧ pc'.unsent = false) ∧ request'.nodeId = request.nodeId
      ∧ request'.requestId = request.requestId := by
  have hpc := h.pc_admits
  cases hm with
  | postFill | postQueued | postClear => simp [AppPc.admits, hnew] at hpc
  | postNew => simp [AppPc.unsent] at hunsent
  | @command _ old _ hres =>
    have hafter := commandPostStep_after cfg (.app r) (.sdo r) old sh
    rw [hres] at hafter
    simp_all [PostPc.after, AppPc.unsent]
  | @commandFailed _ old err hres hok =>
    have hafter := commandPostStep_after cfg (.app r) (.sdo r) old sh
    rw [hres] at hafter
    cases err <;> simp_all [PostPc.after, AppPc.unsent]
  | cancelNext _ hnext =>
    obtain ⟨_, rfl⟩ | ⟨_, _, rfl⟩ := cancelNext_inl hnext <;> simp [AppPc.unsent, hnew]
  | @pin _ kind => cases kind <;> simp [AppPc.unsent, PinKind.pinned]
  | @unpin _ ctx _ | @unpinRet _ ctx _ =>
    simp [AppPc.unsent, PinKind.releasedState_ne_new]
  | _ => simp_all [AppPc.unsent]

section

variable {own own' : Own ι κ} {sh sh' : Shared ι κ} {cfg : BuildConfig} {lim : Limits} {v : View ι}
  {o : Op ι κ} {input : Input} {b : o.Res}

/-- A step of another thread keeps what a request was posted with. -/
theorem Inv.env_posted [Fintype ι] [Fintype κ] (h : Inv cfg lim own sh v)
    (henv : EnvStep cfg sh sh') (r : ι) : sh.KeepsPosted sh' r := by
  intro hposted
  cases henv.move h.requests.possible with
  | @app eff pc request evs r' hm heq =>
    subst heq
    obtain ⟨hheap, _, happ, _⟩ := Effect.apply_same cfg r' sh eff
    by_cases hr : r = r'
    . subst hr
      have hkeeps := (h.requests r).move_posted_keeps hm hposted.1 hposted.2
      simpa [Shared.Posted] using hkeeps
    . simpa [Shared.Posted, Shared.settle, hheap, happ, hr] using hposted
  | poster _ _ _ _ _ hsame | other _ hsame =>
    obtain ⟨bit, hheap⟩ := hsame.heap r
    simpa [Shared.Posted, hheap, hsame.app] using hposted

omit [DecidableEq κ] in
/-- An operation of the owner keeps what a request was posted with. -/
theorem run_posted (hexec : o.run input own sh = (b, own', sh'))
    (hnew : ∀ r expected, o ≠ .casState r expected .new) (r : ι) : sh.KeepsPosted sh' r := by
  intro hposted
  have hident := run_ident (o := o) input own sh r
  have happ := (run_threads (o := o) input own sh).1
  rw [hexec] at hident happ
  refine ⟨⟨?_, ?_⟩, hident.2.1, hident.1⟩
  . obtain hst | ⟨expected, desired, rfl, _, _, hst⟩ := run_state_cases hexec r
    . rw [hst]
      exact hposted.1
    . rw [hst]
      rintro rfl
      exact hnew r expected rfl
  . simp only at happ
    rw [happ]
    exact hposted.2

/-- The owner holds only requests that were posted. -/
theorem Inv.posted_of_held [Fintype ι] [Fintype κ] (h : Inv cfg lim own sh v) {r : ι}
    (hheld : v.place r ≠ .away) : sh.Posted r := by
  refine ⟨?_, ?_⟩
  . intro hst
    exact hheld (Place.away_of_admits (h.requests r).place_admits (.inl hst))
  . by_contra hunsent
    apply hheld
    apply (h.requests r).alone_away
    have hunsent : (sh.app r).unsent = true := by simpa using hunsent
    simp [AppPc.alone, hunsent]

end

end LelyRtt
