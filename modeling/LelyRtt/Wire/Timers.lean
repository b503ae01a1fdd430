import LelyRtt.Wire.Complete

/-!
This module contains the SDO timers: `on_time` is null in the waiting and stopped states, `on_recv` and
`on_abort` are null in the abort state of the client, and none of them is called there.
-/

namespace LelyRtt.Wire

namespace Csdo

/-- The state has all the transition functions that may be called in it. -/
structure Callable (sdo : Csdo) : Prop where
  timer : sdo.timer = true → sdo.Busy
  state : sdo.state ≠ .abort

variable {sdo : Csdo}

theorem Busy.callable (h : sdo.Busy) : sdo.Callable := ⟨fun _ => h, h.ne_abort⟩

theorem ended_callable (sdo : Csdo) (ac : BitVec 32) : (sdo.ended ac).Callable :=
  ⟨fun h => absurd h Bool.false_ne_true, show CState.wait ≠ .abort by decide⟩

/-- A transition of a callable client leads to one, whatever it does on its way. -/
theorem enter_callable {r : CNext} (hstate : r.sdo.state ≠ .abort)
    (hnone : r.next = none → r.sdo.timer = true → r.sdo.Busy)
    (hreserving : r.next = some .reserving → r.sdo.timer = false)
    (hnext : ∀ next, r.next = some next → next ≠ .wait ∧ next ≠ .stopped) : (enter r).1.Callable := by
  obtain ⟨sdo, out, next⟩ := r
  cases next with
  | none =>
    rw [enter, enterLoop_none]
    exact ⟨hnone rfl, hstate⟩
  | some next =>
    cases next with
    | stopped => exact absurd rfl (hnext .stopped rfl).2
    | wait => exact absurd rfl (hnext .wait rfl).1
    | abort =>
      have hend := @enterLoop_abort sdo 1 hstate sdo.ac out
      rw [enter, hend]
      exact ended_callable sdo sdo.ac
    | dnSeg =>
      rw [enter, enterLoop]
      dsimp only
      rw [onLeave_of_ne hstate]
      simp only [onEnter]
      split
      . rw [enterLoop_none]
        exact Busy.callable (.inr (.inl rfl))
      . have hne : { sdo with state := .dnSeg }.state ≠ .abort := show CState.dnSeg ≠ .abort by decide
        have hend := @enterLoop_abort { sdo with state := .dnSeg } 0 hne 0
        simp only [abortInd]
        rw [hend]
        exact ended_callable _ _
    | dnIni =>
      rw [enter_ini hstate (.inl rfl)]
      exact Busy.callable (.inl rfl)
    | upIni =>
      rw [enter_ini hstate (.inr (.inl rfl))]
      exact Busy.callable (.inr (.inr (.inl rfl)))
    | reserving =>
      rw [enter_ini hstate (.inr (.inr rfl))]
      refine ⟨fun htimer => ?_, show CState.reserving ≠ .abort by decide⟩
      have hoff := hreserving rfl
      rw [show sdo.timer = false from hoff] at htimer
      cases htimer
    | upSeg =>
      rw [enter_upSeg hstate]
      exact Busy.callable (.inr (.inr (.inr rfl)))

theorem enter_abortRes_callable (h : sdo.state ≠ .abort) (ac : BitVec 32)
    : (enter (sdo.abortRes ac)).1.Callable :=
  enter_callable h (fun hnone => by cases hnone) (fun hnone => by cases hnone) fun next hnext => by
    cases hnext
    exact ⟨by decide, by decide⟩

theorem enter_abortInd_callable (h : sdo.state ≠ .abort) (ac : BitVec 32)
    : (enter (sdo.abortInd ac)).1.Callable :=
  enter_callable h (fun hnone => by cases hnone) (fun hnone => by cases hnone) fun next hnext => by
    cases hnext
    exact ⟨by decide, by decide⟩

theorem enter_seg_callable (h : sdo.state ≠ .abort) {next : CState}
    (hnext : next = .dnSeg ∨ next = .upSeg) (out : List COut)
    : (enter { sdo, out, next := some next }).1.Callable := by
  refine enter_callable h (fun hnone => by cases hnone) ?_ ?_
  . rintro heq
    cases heq
    rcases hnext with heq | heq <;> cases heq
  . rintro next' hnext'
    cases hnext'
    rcases hnext with rfl | rfl <;> exact ⟨by decide, by decide⟩

theorem Callable.emitRecv (h : sdo.Callable) (mem : Mem) (msg : Msg)
    : (sdo.emitRecv mem msg).1.Callable := by
  have hne := h.state
  unfold Csdo.emitRecv
  split
  . exact h
  . exact h
  . exact h
  . unfold waitOnRecv
    split
    . exact enter_abortRes_callable hne _
    . split
      . exact enter_abortInd_callable hne _
      . rw [enter, enterLoop_none]
        exact h
  . unfold dnIniOnRecv
    split
    . exact enter_abortRes_callable hne _
    . split
      . split
        . exact enter_abortRes_callable hne _
        . exact enter_seg_callable hne (.inl rfl) _
      . split
        . exact enter_abortInd_callable hne _
        . exact enter_abortRes_callable hne _
  . unfold dnSegOnRecv
    split
    . exact enter_abortRes_callable hne _
    . split
      . split
        . exact enter_abortRes_callable hne _
        . exact enter_seg_callable hne (.inl rfl) _
      . split
        . exact enter_abortInd_callable hne _
        . exact enter_abortRes_callable hne _
  . unfold upIniOnRecv
    split
    . exact enter_abortRes_callable hne _
    . split
      . split
        . exact enter_abortRes_callable hne _
        . dsimp only
          split
          . refine enter_abortRes_callable ?_ _
            exact hne
          . refine enter_callable ?_ (fun hnone => by cases hnone) (fun _ => rfl) ?_
            . exact hne
            . rintro next hnext
              cases hnext
              exact ⟨by decide, by decide⟩
          . unfold upIniData
            split
            . refine enter_abortInd_callable ?_ _
              exact hne
            . refine enter_seg_callable ?_ (.inr rfl) _
              exact hne
      . split
        . exact enter_abortInd_callable hne _
        . exact enter_abortRes_callable hne _
  . unfold upSegOnRecv
    split
    . exact enter_abortRes_callable hne _
    . split
      . split
        . exact enter_seg_callable hne (.inr rfl) _
        . dsimp only
          split
          . exact enter_abortRes_callable hne _
          . split
            . exact enter_abortRes_callable hne _
            . unfold upSegData
              split
              . split
                . refine enter_abortRes_callable ?_ _
                  exact hne
                . refine enter_abortInd_callable ?_ _
                  exact hne
              . refine enter_seg_callable ?_ (.inr rfl) _
                exact hne
      . split
        . exact enter_abortInd_callable hne _
        . exact enter_abortRes_callable hne _

theorem Callable.abortReq (h : sdo.Callable) (ac : BitVec 32) : (sdo.abortReq ac).1.Callable := by
  unfold Csdo.abortReq
  split
  . exact enter_abortRes_callable h.state _
  . exact h

theorem Callable.dnReq (h : sdo.Callable) {i : UInt16} {sub : UInt8} {bytes : List UInt8}
    {r : Csdo × List COut} (hr : sdo.dnReq i sub bytes = some r) : r.1.Callable := by
  unfold Csdo.dnReq at hr
  split at hr
  . cases hr
  . cases hr
    refine enter_callable ?_ (fun hnone => by cases hnone) (fun hnone => by cases hnone) ?_
    . unfold sendDnReq
      dsimp only
      split <;> exact h.state
    . rintro next hnext
      cases hnext
      exact ⟨by decide, by decide⟩

theorem Callable.upReq (h : sdo.Callable) {i : UInt16} {sub : UInt8} {r : Csdo × List COut}
    (hr : sdo.upReq i sub = some r) : r.1.Callable := by
  unfold Csdo.upReq at hr
  split at hr
  . cases hr
  . cases hr
    refine enter_callable ?_ (fun hnone => by cases hnone) (fun hnone => by cases hnone) ?_
    . exact h.state
    . rintro next hnext
      cases hnext
      exact ⟨by decide, by decide⟩

end Csdo

namespace Ssdo

/-- The timer of the server only runs with a timeout and in a state that has an `on_time`. -/
structure Callable (sdo : Ssdo) : Prop where
  timeout : sdo.timer = true → sdo.timeout ≠ 0
  timer : sdo.timer = true → sdo.Segment

variable {sdo sdo' : Ssdo} {dev : Dev}

/-- Two servers whose timers are alike. -/
structure Alike (sdo sdo' : Ssdo) : Prop where
  timer : sdo'.timer = sdo.timer
  timeout : sdo'.timeout = sdo.timeout
  state : sdo'.state = sdo.state

theorem Alike.refl (sdo : Ssdo) : sdo.Alike sdo := ⟨rfl, rfl, rfl⟩

theorem Alike.trans {sdo'' : Ssdo} (h : sdo.Alike sdo') (h' : sdo'.Alike sdo'') : sdo.Alike sdo'' :=
  ⟨h'.timer.trans h.timer, h'.timeout.trans h.timeout, h'.state.trans h.state⟩

theorem Alike.callable (h : sdo.Alike sdo') (hc : sdo.Callable) : sdo'.Callable where
  timeout := by
    rw [h.timer, h.timeout]
    exact hc.timeout
  timer := by
    rw [h.timer, Segment, h.state]
    exact hc.timer

theorem Callable.abortInd (h : sdo.Callable) : sdo.abortInd.Callable := by
  have hoff : sdo.abortInd.timer = false := by
    cases htimer : sdo.timer with
    | false => simp [Ssdo.abortInd, htimer]
    | true => simp [Ssdo.abortInd, htimer, h.timeout htimer]
  constructor
  . rw [hoff]
    exact fun h => absurd h Bool.false_ne_true
  . rw [hoff]
    exact fun h => absurd h Bool.false_ne_true

theorem Callable.armed (h : sdo.Callable) {state : SState} (hstate : state = .dnSeg ∨ state = .upSeg)
    : { sdo.armTimer with state }.Callable where
  timeout := by
    intro htimer
    show sdo.timeout ≠ 0
    have hor : (sdo.timer || decide (sdo.timeout ≠ 0)) = true := htimer
    rcases Bool.or_eq_true_iff.1 hor with hold | hnew
    . exact h.timeout hold
    . exact of_decide_eq_true hnew
  timer _ := hstate

theorem Callable.refuse {ind : Ssdo × Option (BitVec 32) × List SOut} (h : ind.1.Callable)
    : (Ssdo.refuse ind).1.Callable := by
  unfold Ssdo.refuse
  split
  . exact ⟨fun htimer => absurd htimer Bool.false_ne_true, fun htimer => absurd htimer Bool.false_ne_true⟩
  . exact h.abortInd

theorem dnInd_alike (sdo : Ssdo) (dev : Dev) : sdo.Alike (sdo.dnInd dev).1 := by
  unfold dnInd
  split
  . exact .refl sdo
  . dsimp only
    split <;> exact ⟨rfl, rfl, rfl⟩

theorem upInd_alike (sdo : Ssdo) (dev : Dev) : sdo.Alike (sdo.upInd dev).1 := by
  unfold upInd
  split
  . exact .refl sdo
  . dsimp only
    split <;> exact ⟨rfl, rfl, rfl⟩

theorem upCopy_alike (sdo : Ssdo) (n : Nat) : sdo.Alike (sdo.upCopy n).1 := ⟨rfl, rfl, rfl⟩

theorem upBufLoop_alike (dev : Dev) (fuel : Nat) (sdo : Ssdo) (n : Nat)
    : sdo.Alike (upBufLoop dev fuel sdo n).1 := by
  induction fuel generalizing sdo n with
  | zero => exact .refl sdo
  | succ fuel ih =>
    rw [upBufLoop]
    dsimp only
    split
    . exact .refl sdo
    . split
      . split
        . exact .refl sdo
        . have hasked := upInd_alike sdo dev
          split
          . exact hasked
          . have hzero : (sdo.upInd dev).1.Alike { (sdo.upInd dev).1 with nbyte := 0 } := ⟨rfl, rfl, rfl⟩
            exact (hasked.trans hzero).trans ((upCopy_alike _ n).trans (ih _ _))
      . exact (upCopy_alike sdo n).trans (ih _ _)

theorem upBuf_alike (sdo : Ssdo) (dev : Dev) (n : Nat) : sdo.Alike (sdo.upBuf dev n).1 := by
  rw [upBuf]
  split
  . exact .refl sdo
  . exact .refl sdo
  . next buf _ =>
    have hbuf : sdo.Alike { sdo with buf } := ⟨rfl, rfl, rfl⟩
    exact hbuf.trans (upBufLoop_alike dev 2 _ n)

theorem Callable.dnIniInd (h : sdo.Callable) (dev : Dev) (exp : Bool)
    : (sdo.dnIniInd dev exp).1.Callable := by
  have hind := (dnInd_alike sdo dev).callable h
  unfold Ssdo.dnIniInd
  dsimp only
  split
  . exact hind.refuse
  . split
    . exact hind.abortInd
    . exact hind.armed (.inl rfl)

theorem Callable.dnSegInd (h : sdo.Callable) (dev : Dev) (last : Bool) (hstate : sdo.state = .dnSeg)
    : (sdo.dnSegInd dev last).1.Callable := by
  have hlike := dnInd_alike sdo dev
  have hind := hlike.callable h
  unfold Ssdo.dnSegInd
  dsimp only
  split
  . exact hind.refuse
  . split
    . exact Callable.abortInd ⟨hind.timeout, hind.timer⟩
    . have harmed := hind.armed (.inl (hlike.state.trans hstate))
      exact ⟨harmed.timeout, harmed.timer⟩

theorem Callable.upIniInd (h : sdo.Callable) (dev : Dev) : (sdo.upIniInd dev).1.Callable := by
  have hind := (upInd_alike sdo dev).callable h
  have hread := (upBuf_alike (sdo.upInd dev).1 dev (sdo.upInd dev).1.req.size).callable hind
  unfold Ssdo.upIniInd
  dsimp only
  split
  . exact hind.refuse
  . split
    . split
      . exact hread.refuse
      . exact hread.abortInd
    . exact hind.armed (.inr rfl)

theorem Callable.upSegBuf (h : sdo.Callable) (dev : Dev) (hstate : sdo.state = .upSeg)
    : (sdo.upSegBuf dev).1.Callable := by
  have hclear : sdo.Alike { sdo with buf := sdo.buf.clear } := ⟨rfl, rfl, rfl⟩
  have hlike := hclear.trans (upBuf_alike { sdo with buf := sdo.buf.clear } dev 7)
  have hread := hlike.callable h
  unfold Ssdo.upSegBuf
  dsimp only
  split
  . exact hread.refuse
  . split
    . exact Callable.abortInd ⟨hread.timeout, hread.timer⟩
    . have harmed := hread.armed (.inr (hlike.state.trans hstate))
      exact ⟨harmed.timeout, harmed.timer⟩

theorem Callable.dnIniOnRecv (h : sdo.Callable) (dev : Dev) (msg : Msg)
    : (sdo.dnIniOnRecv dev msg).1.Callable := by
  unfold Ssdo.dnIniOnRecv
  split
  . exact h.abortInd
  . dsimp only
    split
    . exact Callable.abortInd ⟨h.timeout, h.timer⟩
    . refine Callable.dnIniInd ?_ dev _
      exact ⟨h.timeout, h.timer⟩

theorem Callable.upIniOnRecv (h : sdo.Callable) (dev : Dev) (msg : Msg)
    : (sdo.upIniOnRecv dev msg).1.Callable := by
  unfold Ssdo.upIniOnRecv
  split
  . exact h.abortInd
  . dsimp only
    split
    . exact Callable.abortInd ⟨h.timeout, h.timer⟩
    . refine Callable.upIniInd ?_ dev
      exact ⟨h.timeout, h.timer⟩

theorem Callable.emitRecv (h : sdo.Callable) (dev : Dev) (msg : Msg)
    : (sdo.emitRecv dev msg).1.Callable := by
  unfold Ssdo.emitRecv
  split
  . exact h
  . exact h
  . unfold waitOnRecv
    split
    . exact h.abortInd
    . split
      . exact h.dnIniOnRecv dev msg
      . split
        . exact h.upIniOnRecv dev msg
        . split
          . exact h
          . exact h.abortInd
  . next hstate =>
    unfold dnSegOnRecv
    split
    . exact h.abortInd
    . split
      . split
        . exact h
        . dsimp only
          split
          . exact h.abortInd
          . split
            . exact h.abortInd
            . split
              . exact Callable.abortInd ⟨h.timeout, h.timer⟩
              . refine Callable.dnSegInd ?_ dev _ hstate
                exact ⟨h.timeout, h.timer⟩
      . split <;> exact h.abortInd
  . next hstate =>
    unfold upSegOnRecv
    split
    . exact h.abortInd
    . split
      . split
        . exact h.abortInd
        . exact h.upSegBuf dev hstate
      . split <;> exact h.abortInd

theorem Callable.emitAbort (h : sdo.Callable) (ac : BitVec 32) : (sdo.emitAbort ac).1.Callable := by
  unfold Ssdo.emitAbort
  split
  . exact h
  . exact h
  . exact h
  . exact h.abortInd
  . exact h.abortInd

end Ssdo

/-! ### Runs -/

/-- Both sides of a channel are callable. -/
structure Link.Callable (link : Link) : Prop where
  client : link.client.Callable
  server : link.server.Callable

variable {link link' : Link}

theorem callable_step (h : link.Callable) (hstep : Link.Step link link') : link'.Callable := by
  have hc := h.client
  have hs := h.server
  cases hstep with
  | dnReq idx subidx bytes hquiet hsize hreq => exact ⟨hc.dnReq hreq, hs⟩
  | upReq idx subidx hquiet hreq => exact ⟨hc.upReq hreq, hs⟩
  | clientRecv mem hmsg => exact ⟨hc.emitRecv mem _, hs⟩
  | clientTimer =>
    have hoff : { link.client with timer := false }.Callable :=
      ⟨fun h => absurd h Bool.false_ne_true, hc.state⟩
    exact ⟨hoff.abortReq acTimeout, hs⟩
  | clientAbort ac hac => exact ⟨hc.abortReq ac, hs⟩
  | clientTimeout timeout =>
    exact ⟨⟨fun h => hc.timer (Bool.and_eq_true_iff.1 h).1, hc.state⟩, hs⟩
  | clientStop =>
    refine ⟨?_, hs⟩
    show link.client.stop.1.Callable
    unfold Csdo.stop
    split
    . exact hc
    . exact ⟨fun h => absurd h Bool.false_ne_true, show CState.stopped ≠ .abort by decide⟩
  | clientStart =>
    refine ⟨?_, hs⟩
    show link.client.start.Callable
    unfold Csdo.start
    split
    . next hstate =>
      refine ⟨fun htimer => ?_, show CState.wait ≠ .abort by decide⟩
      rcases hc.timer htimer with hb | hb | hb | hb <;> rw [hstate] at hb <;> cases hb
    . exact hc
  | serverRecv dev hmsg => exact ⟨hc, hs.emitRecv dev _⟩
  | serverTimer =>
    have hoff : { link.server with timer := false }.Callable :=
      ⟨fun h => absurd h Bool.false_ne_true, fun h => absurd h Bool.false_ne_true⟩
    exact ⟨hc, hoff.emitAbort acTimeout⟩
  | serverTimeout timeout =>
    refine ⟨hc, ?_, fun h => hs.timer (Bool.and_eq_true_iff.1 h).1⟩
    intro htimer hzero
    obtain ⟨hold, hkeeps⟩ := Bool.and_eq_true_iff.1 htimer
    have hne := hs.timeout hold
    have hnew : timeout = 0 := hzero
    simp [hne, hnew] at hkeeps
  | serverStop =>
    refine ⟨hc, ?_⟩
    show link.server.stop.1.Callable
    unfold Ssdo.stop
    split
    . exact hs
    . exact ⟨fun h => absurd h Bool.false_ne_true, fun h => absurd h Bool.false_ne_true⟩
  | serverStart =>
    refine ⟨hc, ?_⟩
    show link.server.start.Callable
    unfold Ssdo.start
    split
    . next hstate =>
      have hoff (htimer : link.server.timer = true) : False := by
        rcases hs.timer htimer with hb | hb <;> rw [hstate] at hb <;> cases hb
      exact ⟨fun htimer => (hoff htimer).elim, fun htimer => (hoff htimer).elim⟩
    . exact hs
  | faultToServer hq => exact ⟨hc, hs⟩
  | faultToClient hq => exact ⟨hc, hs⟩

/--
No null transition function is ever called: between two calls the client is never in its abort state,
and neither timer runs in a state without an `on_time`. Nor does the server's timer run without a
timeout, although the server stops it at the end of a transfer only if it has one.
-/
theorem callable_run (h : Link.Reaches link)
    : link.client.state ≠ .abort ∧ (link.client.timer = true → link.client.Busy)
      ∧ (link.server.timer = true → link.server.Segment ∧ link.server.timeout ≠ 0) := by
  have hcallable : link.Callable := by
    induction h with
    | init =>
      have hc : Csdo.init.start.Callable :=
        ⟨fun h => absurd h Bool.false_ne_true, show CState.wait ≠ .abort by decide⟩
      exact ⟨hc, fun h => absurd h Bool.false_ne_true, fun h => absurd h Bool.false_ne_true⟩
    | step _ hstep ih => exact callable_step ih hstep
  exact ⟨hcallable.client.state, hcallable.client.timer,
    fun htimer => ⟨hcallable.server.timer htimer, hcallable.server.timeout htimer⟩⟩

/-- In the middle of a download of ten bytes both timers run. -/
theorem callable_run_segments
    : ∃ link, Link.Reaches link ∧ link.client.timer = true ∧ link.server.timer = true
      ∧ link.client.state ≠ .abort ∧ (link.client.timer = true → link.client.Busy)
      ∧ (link.server.timer = true → link.server.Segment ∧ link.server.timeout ≠ 0) := by
  have htimeouts := (Link.Reaches.init.step (.clientTimeout 500)).step (.serverTimeout 700)
  have hfirst := htimeouts.step
    (.dnReq 0x2000 1 [0, 1, 2, 3, 4, 5, 6, 7, 8, 9] ⟨rfl, rfl⟩ (by decide) rfl)
  have hsegment := hfirst.delivers (openDev [] (by decide)) targetMem 3
  exact ⟨_, hsegment, rfl, rfl, callable_run hsegment⟩

end LelyRtt.Wire
