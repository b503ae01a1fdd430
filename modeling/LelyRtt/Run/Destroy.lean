import LelyRtt.Protocol.Trace

/-!
This module contains the result about the destruction of requests: a request that passes the checks
of `lely_rtt_sdo_request_destroy` is out of reach of the owner.
-/

namespace LelyRtt

open Conc

variable {ι κ : Type} [DecidableEq ι] [DecidableEq κ] [Fintype ι] [Fintype κ]
  {cfg : BuildConfig} {lim : Limits} {own own' : Own ι κ} {sh sh' : Shared ι κ} {v v' : View ι}
  {c c' : Cfg ι κ} {r : ι}

/-- The request has passed the checks of `lely_rtt_sdo_request_destroy`. -/
def AppPc.destroys : AppPc → Bool
  | .destroyFree | .destroyed => true
  | _ => false

/-- The operation reads or writes a field of the request, or uses its event. -/
def Op.touches (r : ι) : Op ι κ → Bool
  | .loadState r' | .casState r' _ _ | .storeCompletionRefs r' _ | .sendCompletion r' | .read r'
  | .setResult r' _ _ _ | .setCancelRequested r' | .setNext r' _ | .setBuffer r' _ _ | .start r' =>
    r' = r
  | _ => false

/-- The owner touches only requests that it holds. -/
theorem Inv.held_of_touches {o : Op ι κ} {b : o.Res} (h : Inv cfg lim own sh v)
    (hghost : Ghost cfg lim o own sh b v v') (htouches : o.touches r) : v.place r ≠ .away := by
  have hmem {r : ι} {node : Nat} (hr : r ∈ v.fifo node) : v.place r ≠ .away := by
    obtain hplace | hplace := (h.lists.mem_fifo node r).mp hr <;> simp [hplace]
  cases hghost with
  | look hlooks => cases o <;> simp_all [Op.touches, Op.looks]
  | touchCancel hheld | touchBuffer hheld => simp_all [Op.touches]
  | clearNext hhand =>
    simp only [Op.touches, decide_eq_true_eq] at htouches
    subst htouches
    intro haway
    have hin := (h.lists.hand_iff _).mp hhand
    simp [haway, Place.inHand] at hin
  | link _ hfifo =>
    simp only [Op.touches, decide_eq_true_eq] at htouches
    subst htouches
    exact hmem (by rw [hfifo]; simp)
  | unlink _ _ hfifo =>
    simp only [Op.touches, decide_eq_true_eq] at htouches
    subst htouches
    exact hmem (by rw [hfifo]; simp)
  | takeDetached _ hdetached =>
    simp only [Op.touches, decide_eq_true_eq] at htouches
    subst htouches
    have hplace := (h.lists.mem_detached _).mp (by rw [hdetached]; exact List.mem_cons_self)
    simp [hplace]
  | setResult hplace =>
    simp only [Op.touches, decide_eq_true_eq] at htouches
    subst htouches
    intro haway
    simp [haway, Place.ending?] at hplace
  | _ => simp_all [Op.touches]

/-- A request stays destroyed. -/
theorem Inv.destroys_of_moved (h : Inv cfg lim own sh v)
    (hmoved : Moved cfg lim own sh v own' sh' v') (hdestroys : (sh.app r).destroys)
    : (sh'.app r).destroys := by
  cases hmoved with
  | turn => exact hdestroys
  | @exec o input _ _ _ _ hexec _ =>
    have happ := (run_threads (o := o) input own sh).1
    simp only [hexec] at happ
    rw [happ]
    exact hdestroys
  | env henv =>
    cases henv.move h.requests.possible with
    | poster _ _ _ _ _ hsame => rwa [hsame.app]
    | other _ hsame => rwa [hsame.app]
    | @app eff pc request evs r' hm heq =>
      subst heq
      obtain ⟨_, _, happ, _⟩ := Effect.apply_same cfg r' sh eff
      by_cases hr : r = r'
      . subst hr
        rw [Shared.settle_app_self]
        generalize sh.app r = old at hm hdestroys
        cases hm with
        | destroyFree => rfl
        | cancelNext hretry | cancelRet hretry =>
          obtain rfl | ⟨_, rfl⟩ | rfl := AppPc.retrying_cases hretry
            <;> simp [AppPc.destroys] at hdestroys
        | _ => simp [AppPc.destroys] at hdestroys
      . simpa [Shared.settle, happ, hr] using hdestroys

/-- A destroyed request is out of reach of the owner. -/
theorem Inv.away_of_destroys (h : Inv cfg lim own sh v) (hdestroys : (sh.app r).destroys)
    : v.place r = .away := by
  apply (h.requests r).alone_away
  revert hdestroys
  cases sh.app r <;> simp [AppPc.destroys, AppPc.alone]

/-- The command of a destroyed request is not in the queue. -/
theorem Inv.not_queued_of_destroys (h : Inv cfg lim own sh v) (hdestroys : (sh.app r).destroys)
    {entry : Entry ι κ} (hentry : entry ∈ sh.queue) : entry.command ≠ .sdo r := by
  intro hcommand
  have htid := (h.sent.posted h.commands).tid_eq entry hentry r hcommand
  have hmem : (⟨.app r, .sdo r⟩ : Entry ι κ) ∈ sh.queue := by
    rw [← htid, ← hcommand]
    exact hentry
  have hst := ((h.requests r).queued_iff.mp hmem).2.1
  have hadmits := (h.requests r).pc_admits
  revert hdestroys hadmits
  cases sh.app r <;> obtain hst | hst := hst <;> simp [AppPc.destroys, AppPc.admits, hst]

/-- The owner is not about to touch a destroyed request. -/
theorem untouched_of_destroys (h : (logic ι κ cfg .none).GoodAt c v)
    (hdestroys : (c.sh.app r).destroys) {o : Op ι κ} (hnext : c.next? = some o)
    : o.touches r = false := by
  by_contra htouches
  rw [Bool.not_eq_false] at htouches
  have hrun : o.run {} c.own c.sh = o.run {} c.own c.sh := rfl
  obtain ⟨v', hghost⟩ := ghost_of_next h hnext hrun (permits_none ..)
  exact h.1.held_of_touches hghost htouches (h.1.away_of_destroys hdestroys)

/--
Destroy safety. A request that has passed the checks of `lely_rtt_sdo_request_destroy` is in no slot,
in no list, in no command of the queue and in no running transfer, and the owner touches it in no
later step. The post, cancel and destroy calls on one request do not overlap in these runs, since
`appStep` gives them one program point: the application has to serialize them.
-/
theorem destroy_safe (hreach : (machine ι κ cfg).Reach (Starts cfg) c)
    (hdestroys : (c.sh.app r).destroys)
    : (∀ node, c.own.sdoActive node ≠ some r)
      ∧ (∀ node, ∃ fifo, c.own.sdoPending node = fifo.head? ∧ Threaded c.sh.next fifo ∧ r ∉ fifo)
      ∧ (∀ entry ∈ c.sh.queue, entry.command ≠ .sdo r)
      ∧ (∀ chan, c.own.csdo chan ≠ some (.busy r))
      ∧ ∀ c' : Cfg ι κ, (machine ι κ cfg).Steps c c' →
        (c'.sh.app r).destroys ∧ ∀ o, c'.next? = some o → o.touches r = false := by
  obtain ⟨v, hgood⟩ := good_of_reach hreach
  have hinv := hgood.1
  have haway := hinv.away_of_destroys hdestroys
  refine ⟨?_, ?_, ?_, ?_, ?_⟩
  . intro node hactive
    have hplace := (hinv.lists.active_iff node r).mp hactive
    simp [haway] at hplace
  . intro node
    refine ⟨v.fifo node, hinv.lists.pending_eq node, hinv.lists.fifo_threaded node, ?_⟩
    intro hmem
    have hplace := (hinv.lists.mem_fifo node r).mp hmem
    simp [haway] at hplace
  . intro entry hentry
    exact hinv.not_queued_of_destroys hdestroys hentry
  . intro chan hbusy
    obtain ⟨node, hplace, _⟩ := hinv.lists.busy chan r hbusy
    simp [haway] at hplace
  . intro c' hsteps
    obtain ⟨v', hgood', hdestroys'⟩ := steps_induction (P := fun _ sh _ => (sh.app r).destroys)
      hgood hsteps hdestroys
      (fun _ _ _ _ _ _ hinv hdestroys hmoved => hinv.destroys_of_moved hmoved hdestroys)
    exact ⟨hdestroys', fun o hnext => untouched_of_destroys hgood' hdestroys' hnext⟩

/-- A request that was posted, was completed by the end of the run and is destroyed then. -/
theorem destroy_safe_completed
    : ∃ c : Cfg Unit Unit, (machine Unit Unit .small).Reach (Starts .small) c
      ∧ .postRet .ok ∈ c.sh.hist () ∧ .destroyRet .ok ∈ c.sh.hist ()
      ∧ ∀ node, c.own.sdoActive node ≠ some () := by
  obtain ⟨c, hreach, hposted, hret, hdestroyed, _⟩ := reach_destroyed
  exact ⟨c, hreach, hposted, hret, (destroy_safe hreach (by simp [hdestroyed, AppPc.destroys])).1⟩

/-! ### Calls that are not serialized -/

section

omit [Fintype ι] [Fintype κ]

/-- One step of a second call on the request `r`, which is at the program point `pc`. -/
def secondStep (cfg : BuildConfig) (r : ι) (call : AppCall) (pc : AppPc) (sh : Shared ι κ)
    : Option (AppPc × Shared ι κ) :=
  (appStep cfg r call (sh.setApp r pc)).map fun sh' => (sh'.app r, sh'.setApp r (sh.app r))

/--
The runs in which a second thread makes calls on the request `r` as well, at any time. The program
point is that of the second thread.
-/
inductive Overlaps (cfg : BuildConfig) (r : ι) : AppPc → Cfg ι κ → Prop
  | start {c : Cfg ι κ} : Starts cfg c → Overlaps cfg r .idle c
  | step {pc : AppPc} {c c' : Cfg ι κ} : Overlaps cfg r pc c → (machine ι κ cfg).Step c c' →
      Overlaps cfg r pc c'
  | second {pc pc' : AppPc} {c : Cfg ι κ} {sh' : Shared ι κ} (call : AppCall) :
      Overlaps cfg r pc c → secondStep cfg r call pc c.sh = some (pc', sh') →
      Overlaps cfg r pc' { c with sh := sh' }

/-- The run along a schedule of both threads; the calls are those of the second one. -/
def overlapAlong (cfg : BuildConfig) (r : ι)
    : List (Choice ι κ ⊕ AppCall) → AppPc → Cfg ι κ → Option (AppPc × Cfg ι κ)
  | [], pc, c => some (pc, c)
  | .inl choice :: rest, pc, c =>
    match choice.step cfg c with
    | none => none
    | some c => overlapAlong cfg r rest pc c
  | .inr call :: rest, pc, c =>
    match secondStep cfg r call pc c.sh with
    | none => none
    | some (pc, sh) => overlapAlong cfg r rest pc { c with sh := sh }

theorem overlapAlong_sound {schedule : List (Choice ι κ ⊕ AppCall)} {pc pc' : AppPc}
    (hreach : Overlaps cfg r pc c) (h : overlapAlong cfg r schedule pc c = some (pc', c'))
    : Overlaps cfg r pc' c' := by
  induction schedule generalizing pc c with
  | nil =>
    cases h
    exact hreach
  | cons choice rest ih =>
    cases choice with
    | inl choice =>
      unfold overlapAlong at h
      split at h
      . cases h
      next c₁ hstep => exact ih (hreach.step (Choice.step_sound hstep)) h
    | inr call =>
      unfold overlapAlong at h
      split at h
      . cases h
      next pc₁ sh₁ hstep => exact ih (hreach.second call hstep) h

/-- A schedule that ends in a configuration with the property. -/
theorem overlaps_of_overlapAlong (hstart : Starts cfg c) (schedule : List (Choice ι κ ⊕ AppCall))
    (p : AppPc → Cfg ι κ → Bool) (h : (overlapAlong cfg r schedule .idle c).any fun x => p x.1 x.2)
    : ∃ pc c', Overlaps cfg r pc c' ∧ p pc c' := by
  cases hrun : overlapAlong cfg r schedule .idle c with
  | none => simp [hrun] at h
  | some x =>
    rw [hrun] at h
    exact ⟨x.1, x.2, overlapAlong_sound (.start hstart) hrun, by simpa using h⟩

end

/-- A whole destroy call within a post of the same request that has passed its check of the state. -/
def Overlap.destroys : List (Choice Unit Unit ⊕ AppCall) :=
  (Choice.starts ++ Choice.uploads 3 () 5).map .inl ++ List.replicate 4 (.inr .destroy)
    ++ (Choice.uploads 12 () 5).map .inl

/--
A destroy call that overlaps the post of the same request destroys it while it is new. The post goes
on and queues the destroyed request, and the owner takes it from the queue and touches it.
-/
theorem destroy_unsafe_overlapping
    : (∃ c : Cfg Unit Unit, Overlaps .small () .destroyed c
        ∧ ∃ entry ∈ c.sh.queue, entry.command = .sdo ())
      ∧ ∃ c : Cfg Unit Unit, Overlaps .small () .destroyed c
        ∧ ∃ o, c.next? = some o ∧ o.touches () = true := by
  constructor
  . obtain ⟨pc, c, hreach, hc⟩ := overlaps_of_overlapAlong (r := ()) (starts_blank Unit Unit .small)
      Overlap.destroys (fun pc c => pc = .destroyed ∧ ∃ entry ∈ c.sh.queue, entry.command = .sdo ())
      (by decide +kernel)
    simp only [decide_eq_true_eq] at hc
    obtain ⟨rfl, hentry⟩ := hc
    exact ⟨c, hreach, hentry⟩
  . obtain ⟨pc, c, hreach, hc⟩ := overlaps_of_overlapAlong (r := ()) (starts_blank Unit Unit .small)
      (Overlap.destroys ++ (Choice.owners 9 {}).map .inl)
      (fun pc c => pc = .destroyed ∧ c.next?.any (Op.touches ())) (by decide +kernel)
    simp only [decide_eq_true_eq] at hc
    obtain ⟨rfl, htouches⟩ := hc
    obtain ⟨o, hnext, ho⟩ := (Option.any_eq_true _ _).mp htouches
    exact ⟨c, hreach, o, hnext, ho⟩

end LelyRtt
