import LelyRtt.Protocol.Rules

/-!
This module contains the specifications of the functions that complete a request, start its transfer
and confirm it.
-/

namespace LelyRtt

open Conc

variable {ι κ : Type} [DecidableEq ι] [DecidableEq κ] [Fintype ι] [Fintype κ]
  {cfg : BuildConfig} {lim : Limits} {own : Own ι κ} {v : View ι} {r : ι} {node : Nat}

/-- The state of a request that is about to be completed. -/
theorem Inv.ending_state {sh : Shared ι κ} {kind : Ending} {written held : Bool}
    (h : Inv cfg lim own sh v) (hplace : v.place r = .ending kind written held)
    : (sh.heap r).state.terminal = false ∧ (sh.heap r).runtime = true := by
  exact ⟨(h.requests r).not_terminal (by simp [hplace]) (by simp [hplace]),
    ((h.requests r).filled_of_held (by simp [hplace]) (by simp [hplace])).1⟩

theorem ReqState.pinned_cases {st : ReqState} (h : st.pinned)
    : ∃ pin : PinKind, st = pin.pinned
      ∧ (if st = .activeCancelPinned then .activeCancelDone else .pendingCancelDone) = pin.staged := by
  cases st <;> simp [ReqState.pinned] at h
  . exact ⟨.pending, rfl, rfl⟩
  . exact ⟨.active, rfl, rfl⟩

/-- One attempt to complete a request whose result is written. -/
theorem sdoComplete_attempt {kind : Ending} {state : ReqState}
    (hplace : v.place r = .ending kind true false) (hhand : v.hand = some r)
    (hpin : own.pinStage = .none) (hstate : state.terminal = false)
    : Ensures cfg lim (sdoComplete.attempt r state) own v fun res own' v' =>
        own' = own ∧ match res with
          | .inl st => v' = v ∧ st.terminal = false
          | .inr _ => v' = v.put r .away := by
  have hself : v.put r (.ending kind true false) = v := View.put_self hplace hhand
  have hown : { own with pinStage := .none } = own := by simp [← hpin]
  unfold sdoComplete.attempt
  rw [if_neg (by simp [hstate])]
  split
  next hpinned =>
    obtain ⟨pin, hst, hstaged⟩ := state.pinned_cases hpinned
    apply Ensures.bind
    apply Ensures.read (by simp [hplace])
    intro sh hinv
    have hruntime := (hinv.ending_state hplace).2
    simp only [hruntime, ↓reduceIte]
    apply Ensures.bind
    apply Ensures.pinRuntime hplace hpin
    apply Ensures.bind
    refine Ensures.casStaged hst hstaged hplace rfl ?_ ?_
    . apply Ensures.ret
      exact ⟨hown, rfl⟩
    . intro sh hinv
      apply Ensures.bind
      apply Ensures.unpinRuntime rfl
      apply Ensures.ret
      exact ⟨hown, rfl, (hinv.ending_state hplace).1⟩
  next hpinned =>
    apply Ensures.bind
    apply Ensures.step (fun _ _ => rfl) (fun _ _ _ => .hold hplace)
    intro _
    apply Ensures.bind
    apply Ensures.cas rfl
    . intro sh hinv hst
      refine ⟨_, .publish (View.put_place_self ..) (by simpa using hpinned), ?_⟩
      apply Ensures.bind
      apply Ensures.step (fun _ _ => rfl) (fun _ _ _ => .send (View.put_place_self ..))
      intro _
      apply Ensures.bind
      apply Ensures.step (fun _ _ => rfl) (fun _ _ _ => .finish (View.put_place_self ..))
      intro _
      apply Ensures.ret
      simp
    . intro sh hinv hne
      refine ⟨_, .publishFailed (View.put_place_self ..), ?_⟩
      apply Ensures.bind
      apply Ensures.step (fun _ _ => rfl) (fun _ _ _ => .unhold (View.put_place_self ..))
      intro _
      apply Ensures.ret
      refine ⟨rfl, by simpa using hself, (hinv.ending_state (View.put_place_self ..)).1⟩

/-- The result that a request gets which was canceled before its transfer. -/
def Ending.Accepts (kind : Ending) (status : CompletionStatus) (err : RtErr) (ac : BitVec 32)
    : Prop :=
  kind = .pend → status = .canceled ∧ err = .ok ∧ ac = acNoSdo

theorem sdoComplete_spec {kind : Ending} {status : CompletionStatus} {err : RtErr} {ac : BitVec 32}
    (hplace : (v.place r).ending? = some kind) (hpin : own.pinStage = .none)
    (hresult : kind.Accepts status err ac)
    : Ensures cfg lim (sdoComplete r status err ac) own v fun _ own' v' =>
        own' = own ∧ v' = v.put r .away := by
  have hheld : v.place r ≠ .away := by
    intro heq
    simp [heq, Place.ending?] at hplace
  unfold sdoComplete
  apply Ensures.bind
  apply Ensures.loadState hheld
  intro sh hinv
  have hstate : (sh.heap r).state.terminal = false := by
    have hpublished (sent : Bool) : v.place r ≠ .published sent := by
      intro heq
      simp [heq, Place.ending?] at hplace
    exact (hinv.requests r).not_terminal hheld hpublished
  rw [if_neg (by simp [hstate])]
  apply Ensures.bind
  apply Ensures.step (fun _ _ => rfl) (fun _ _ _ => .setResult hplace hresult)
  intro _
  apply Ensures.bind
  apply Ensures.read (by simp)
  intro _ _
  apply Ensures.loop fun state own' v' => own' = own ∧ v' = v.put r (.ending kind true false)
    ∧ state.terminal = false
  . exact ⟨rfl, rfl, hstate⟩
  . rintro state _ _ ⟨rfl, rfl, hstate⟩
    apply (sdoComplete_attempt (View.put_place_self ..) rfl hpin hstate).mono
    rintro (st | _) _ _ ⟨rfl, hres⟩
    . exact ⟨rfl, hres⟩
    . exact ⟨rfl, by simpa using hres⟩

/-- The bookkeeping is the same up to the stops of Client-SDOs that the node has pending. -/
def Misc.SameBut (node : Nat) (misc misc' : Misc κ) : Prop :=
  ∃ stop, misc' = { misc with sdoStopPending := stop }
    ∧ ∀ other, other ≠ node → stop other = misc.sdoStopPending other

omit [DecidableEq κ] [Fintype κ] in
theorem Misc.SameBut.refl (node : Nat) (misc : Misc κ) : misc.SameBut node misc :=
  ⟨misc.sdoStopPending, rfl, fun _ _ => rfl⟩

omit [DecidableEq κ] [Fintype κ] in
theorem Misc.SameBut.update (node : Nat) (misc : Misc κ) (stop : Bool)
    : misc.SameBut node
        { misc with sdoStopPending := Function.update misc.sdoStopPending node stop } :=
  ⟨_, rfl, fun _ hne => Function.update_of_ne hne ..⟩

omit [DecidableEq κ] [Fintype κ] in
theorem Misc.SameBut.trans {misc misc' misc'' : Misc κ} (h : misc.SameBut node misc')
    (h' : misc'.SameBut node misc'') : misc.SameBut node misc'' := by
  obtain ⟨stop, rfl, hstop⟩ := h
  obtain ⟨stop', rfl, hstop'⟩ := h'
  exact ⟨stop', rfl, fun other hne => (hstop' other hne).trans (hstop other hne)⟩

/-- The slot of the node was emptied, and nothing else changed. -/
structure Freed (node : Nat) (own own' : Own ι κ) : Prop where
  active : own'.sdoActive = Function.update own.sdoActive node none
  pending : own'.sdoPending = own.sdoPending
  csdo : own'.csdo = own.csdo
  misc : own.misc.SameBut node own'.misc
  pinStage : own'.pinStage = own.pinStage

theorem setStopPending_spec (stop : Bool)
    : Ensures cfg lim (setStopPending node stop) own v fun _ own' v' => v' = v
        ∧ own' = { own with misc := { own.misc with
            sdoStopPending := Function.update own.misc.sdoStopPending node stop } } := by
  apply Ensures.step (fun _ _ => rfl)
    (fun _ _ _ => .setMisc (.of_same rfl (.inl ⟨rfl, rfl⟩) rfl rfl ⟨rfl, rfl⟩))
  simp

/-- The place of a request that is the active transfer of a node. -/
theorem Inv.active {sh : Shared ι κ} (h : Inv cfg lim own sh v) (hplace : v.place r = .active node)
    : own.sdoActive node = some r ∧ (sh.heap r).nodeId = node ∧ (sh.heap r).runtime = true
      ∧ node ≠ 0 ∧ node ≤ numNodes := by
  have hnode := (h.requests r).node_eq node (by simp [hplace, Place.node?])
  obtain ⟨hruntime, hfilled⟩ :=
    (h.requests r).filled_of_held (by simp [hplace]) (by simp [hplace])
  exact ⟨(h.lists.active_iff node r).mpr hplace, hnode, hruntime, hnode ▸ hfilled⟩

theorem Inv.claimed {sh : Shared ι κ} (h : Inv cfg lim own sh v) (hplace : v.place r = .claimed node)
    : (sh.heap r).nodeId = node ∧ node ≠ 0 ∧ node ≤ numNodes := by
  have hnode := (h.requests r).node_eq node (by simp [hplace, Place.node?])
  have hfilled := (h.requests r).filled_of_held (by simp [hplace]) (by simp [hplace])
  exact ⟨hnode, hnode ▸ hfilled.2⟩

theorem sdoReleaseActive_spec (hhand : v.hand = none) (hplace : v.place r = .active node)
    (hbusy : ∀ chan, own.csdo chan ≠ some (.busy r))
    : Ensures cfg lim (sdoReleaseActive r node) own v fun _ own' v' =>
        v' = v.put r (.ending .act false false) ∧ Freed node own own' := by
  unfold sdoReleaseActive
  apply Ensures.bind
  apply Ensures.readOwn
  intro sh hinv
  obtain ⟨hactive, _, _, _, hnode⟩ := hinv.active hplace
  rw [if_pos ⟨hnode, hactive⟩]
  apply Ensures.bind
  apply Ensures.step (fun _ _ => rfl) (fun _ _ _ => .release hhand hplace hbusy)
  intro _
  split
  next =>
    apply (setStopPending_spec true).mono
    rintro _ _ _ ⟨rfl, rfl⟩
    exact ⟨rfl, rfl, rfl, rfl, .update .., rfl⟩
  next => exact .ret ⟨rfl, rfl, rfl, rfl, .refl .., rfl⟩

/-- The request is freed and then completed. -/
theorem sdoComplete_freed {status : CompletionStatus} {err : RtErr} {ac : BitVec 32}
    {own₀ : Own ι κ} (hfreed : Freed node own₀ own) (hpin : own₀.pinStage = .none)
    : Ensures cfg lim (sdoComplete r status err ac) own (v.put r (.ending .act false false))
        fun _ own' v' => v' = v.put r .away ∧ Freed node own₀ own' := by
  have hending : ((v.put r (.ending .act false false)).place r).ending? = some .act := by
    simp [Place.ending?]
  apply (sdoComplete_spec hending (by rw [hfreed.pinStage, hpin]) (fun heq => by cases heq)).mono
  rintro _ _ _ ⟨rfl, rfl⟩
  exact ⟨by simp, hfreed⟩

/-- The slot was emptied, a stop of the Client-SDO may be noted, and the request is completed. -/
theorem stopAndComplete_spec {status : CompletionStatus} {err : RtErr} {ac : BitVec 32}
    {own₀ : Own ι κ} {stop : Bool} (hfreed : Freed node own₀ own) (hpin : own₀.pinStage = .none)
    : Ensures cfg lim
        (if stop then do
          setStopPending node true
          sdoComplete r status err ac
        else
          sdoComplete r status err ac)
        own (v.put r (.ending .act false false))
        fun _ own' v' => v' = v.put r .away ∧ Freed node own₀ own' := by
  split
  next =>
    apply Ensures.call (setStopPending_spec true)
    rintro _ _ _ ⟨rfl, rfl⟩
    exact sdoComplete_freed ⟨hfreed.active, hfreed.pending, hfreed.csdo,
      hfreed.misc.trans (.update ..), hfreed.pinStage⟩ hpin
  next => exact sdoComplete_freed hfreed hpin

theorem sdoFinishProtocol_spec {ac : BitVec 32} (hhand : v.hand = none)
    (hplace : v.place r = .active node) (hbusy : ∀ chan, own.csdo chan ≠ some (.busy r))
    (hpin : own.pinStage = .none)
    : Ensures cfg lim (sdoFinishProtocol r ac) own v fun _ own' v' =>
        v' = v.put r .away ∧ Freed node own own' := by
  unfold sdoFinishProtocol
  apply Ensures.bind
  apply Ensures.read (by simp [hplace])
  intro sh hinv
  rw [(hinv.active hplace).2.1]
  apply Ensures.call (sdoReleaseActive_spec hhand hplace hbusy)
  rintro _ own' _ ⟨rfl, hfreed⟩
  apply Ensures.bind
  apply Ensures.read (by simp)
  intro _ _
  split
  next => exact sdoComplete_freed hfreed hpin
  next =>
    split
    next => exact sdoComplete_freed hfreed hpin
    next => exact sdoComplete_freed hfreed hpin

theorem sdoCon_spec {ac : BitVec 32} {data : List UInt8} {alloc : Bool} (hhand : v.hand = none)
    (hplace : v.place r = .active node) (hbusy : ∀ chan, own.csdo chan ≠ some (.busy r))
    (hpin : own.pinStage = .none)
    : Ensures cfg lim (sdoCon r ac data alloc) own v fun _ own' v' =>
        v' = v.put r .away ∧ Freed node own own' := by
  unfold sdoCon
  apply Ensures.bind
  apply Ensures.read (by simp [hplace])
  intro sh hinv
  split
  next =>
    unfold sdoUpCon
    apply Ensures.bind
    apply Ensures.read (by simp [hplace])
    intro sh hinv
    obtain ⟨_, hnode, hruntime, _⟩ := hinv.active hplace
    rw [if_neg (by simp [hruntime]), hnode]
    split
    next =>
      apply Ensures.call (sdoReleaseActive_spec hhand hplace hbusy)
      rintro _ own' _ ⟨rfl, hfreed⟩
      exact sdoComplete_freed hfreed hpin
    next =>
      split
      next =>
        apply Ensures.bind
        apply Ensures.step (fun _ _ => rfl) (fun _ _ _ => .touchBuffer (by simp [hplace]))
        intro _
        exact sdoFinishProtocol_spec hhand hplace hbusy hpin
      next => exact sdoFinishProtocol_spec hhand hplace hbusy hpin
  next =>
    unfold sdoDnCon
    apply Ensures.bind
    apply Ensures.read (by simp [hplace])
    intro sh hinv
    rw [if_pos (hinv.active hplace).2.2.1]
    exact sdoFinishProtocol_spec hhand hplace hbusy hpin

/-- Transfers may have ended, and nothing else changed but Client-SDOs and their pending stops. -/
structure Ended (own : Own ι κ) (v : View ι) (own' : Own ι κ) (v' : View ι) : Prop where
  hand : v'.hand = none
  fifo : v'.fifo = v.fifo
  detached : v'.detached = v.detached
  settled : v'.settled = v.settled
  phase : v'.phase = v.phase
  ident : v'.ident = v.ident
  place : ∀ r, v'.place r = v.place r ∨ (∃ node, v.place r = .active node) ∧ v'.place r = .away
  active : ∀ node, own'.sdoActive node = own.sdoActive node ∨ own'.sdoActive node = none
  pending : own'.sdoPending = own.sdoPending
  misc : ∃ stop, own'.misc = { own.misc with sdoStopPending := stop }
  pinStage : own'.pinStage = own.pinStage

namespace Ended

variable {own' own'' : Own ι κ} {v' v'' : View ι}

omit [DecidableEq ι] [DecidableEq κ] [Fintype ι] [Fintype κ] in
theorem refl (hhand : v.hand = none) : Ended own v own v :=
  ⟨hhand, rfl, rfl, rfl, rfl, rfl, fun _ => .inl rfl, fun _ => .inl rfl, rfl, ⟨_, rfl⟩, rfl⟩

omit [DecidableEq ι] [DecidableEq κ] [Fintype ι] [Fintype κ] in
theorem trans (h : Ended own v own' v') (h' : Ended own' v' own'' v'') : Ended own v own'' v'' where
  hand := h'.hand
  fifo := h'.fifo.trans h.fifo
  detached := h'.detached.trans h.detached
  settled := h'.settled.trans h.settled
  phase := h'.phase.trans h.phase
  ident := h'.ident.trans h.ident
  place := by
    intro r
    obtain heq | ⟨⟨node, hactive⟩, haway⟩ := h'.place r
    . rw [heq]
      exact h.place r
    . obtain heq | ⟨hactive', _⟩ := h.place r
      . exact .inr ⟨⟨node, heq ▸ hactive⟩, haway⟩
      . exact .inr ⟨hactive', haway⟩
  active := by
    intro node
    obtain heq | hnone := h'.active node
    . rw [heq]
      exact h.active node
    . exact .inr hnone
  pending := h'.pending.trans h.pending
  misc := by
    obtain ⟨stop, hmisc⟩ := h.misc
    obtain ⟨stop', hmisc'⟩ := h'.misc
    exact ⟨stop', by rw [hmisc', hmisc]⟩
  pinStage := h'.pinStage.trans h.pinStage

omit [DecidableEq ι] [DecidableEq κ] [Fintype ι] [Fintype κ] in
/-- The Client-SDOs change. -/
theorem setCsdo (hhand : v.hand = none) (csdo : Chan → Option (Csdo ι))
    : Ended own v { own with csdo := csdo } v :=
  ⟨hhand, rfl, rfl, rfl, rfl, rfl, fun _ => .inl rfl, fun _ => .inl rfl, rfl, ⟨_, rfl⟩, rfl⟩

omit [DecidableEq κ] [Fintype ι] [Fintype κ] in
/-- One transfer ended. -/
theorem freed (hplace : v.place r = .active node)
    (hfreed : Freed node own own') : Ended own v own' (v.put r .away) where
  hand := by simp [View.put, Place.inHand]
  fifo := rfl
  detached := rfl
  settled := rfl
  phase := rfl
  ident := rfl
  place := by
    intro r'
    by_cases heq : r' = r
    . subst heq
      exact .inr ⟨⟨node, hplace⟩, by simp⟩
    . exact .inl (by simp [View.put, heq])
  active := by
    intro node'
    rw [hfreed.active]
    by_cases heq : node' = node
    . simp [heq]
    . simp [heq]
  pending := hfreed.pending
  misc := by
    obtain ⟨stop, hmisc, _⟩ := hfreed.misc
    exact ⟨stop, hmisc⟩
  pinStage := hfreed.pinStage

end Ended

/-- A transfer of an application request runs on the Client-SDO. -/
def Own.busyOn (own : Own ι κ) (chan : Chan) : Prop := ∃ r, own.csdo chan = some (.busy r)

/-- The transfer that runs on a Client-SDO is confirmed. -/
theorem confirm_spec {chan : Chan} {ac : BitVec 32} {data : List UInt8} {alloc : Bool}
    (hhand : v.hand = none) (hpin : own.pinStage = .none) (hcsdo : own.csdo chan = some (.busy r))
    : Ensures cfg lim
        (do
          exec (.setCsdo chan (some .idle))
          sdoCon r ac data alloc)
        own v fun _ own' v' =>
          Ended own v own' v' ∧ (∀ chan', chan' ≠ chan → own'.csdo chan' = own.csdo chan')
            ∧ ¬own'.busyOn chan := by
  apply Ensures.bind
  apply Ensures.exec
  intro sh input _ own' sh' hinv hrun _
  cases hrun
  refine ⟨v, .setCsdo (by simp), ?_⟩
  obtain ⟨node, hplace, hchan, _⟩ := hinv.lists.busy chan r hcsdo
  refine Ensures.mono (sdoCon_spec hhand hplace ?_ ?_) ?_
  . -- the request runs on the Client-SDO of its node only
    intro chan' hnow
    by_cases heq : chan' = chan
    . simp [heq] at hnow
    . simp only [Function.update_of_ne heq] at hnow
      obtain ⟨node', hplace', hchan', _⟩ := hinv.lists.busy chan' r hnow
      rw [hplace] at hplace'
      cases hplace'
      exact heq (hchan'.trans hchan.symm)
  . exact hpin
  . rintro _ own' _ ⟨rfl, hfreed⟩
    refine ⟨(Ended.setCsdo hhand _).trans (Ended.freed hplace hfreed), ?_, ?_⟩
    . intro chan' hne
      simp [hfreed.csdo, hne]
    . rintro ⟨r', hnow⟩
      simp [hfreed.csdo] at hnow

theorem csdoAbortReq_spec {chan : Chan} {ac : BitVec 32} (hhand : v.hand = none)
    (hpin : own.pinStage = .none)
    : Ensures cfg lim (csdoAbortReq chan ac) own v fun _ own' v' =>
        Ended own v own' v' ∧ (∀ chan', chan' ≠ chan → own'.csdo chan' = own.csdo chan')
          ∧ ¬own'.busyOn chan
          ∧ (¬own.busyOn chan → v' = v ∧ ∃ csdo, own' = { own with csdo := csdo }) := by
  unfold csdoAbortReq
  apply Ensures.bind
  apply Ensures.readOwn
  intro _ _
  cases hcsdo : own.csdo chan with
  | none =>
    apply Ensures.ret
    refine ⟨.refl hhand, fun _ _ => rfl, ?_, fun _ => ⟨rfl, _, rfl⟩⟩
    rintro ⟨r, hnow⟩
    simp [hcsdo] at hnow
  | some csdo =>
    cases csdo with
    | busy r =>
      apply (confirm_spec hhand hpin hcsdo).mono
      rintro _ own' v' ⟨hended, hother, hidle⟩
      exact ⟨hended, hother, hidle, fun hnot => absurd ⟨r, hcsdo⟩ hnot⟩
    | foreign =>
      apply Ensures.step (fun _ _ => rfl) (fun _ _ _ => .setCsdo (by simp))
      intro _
      refine ⟨Ended.setCsdo hhand _, ?_, ?_, fun _ => ⟨rfl, _, rfl⟩⟩
      . intro chan' hne
        simp [hne]
      . rintro ⟨r', hnow⟩
        simp at hnow
    | _ =>
      apply Ensures.ret
      refine ⟨.refl hhand, fun _ _ => rfl, ?_, fun _ => ⟨rfl, _, rfl⟩⟩
      rintro ⟨r, hnow⟩
      simp [hcsdo] at hnow

theorem csdoStop_spec {chan : Chan} (hhand : v.hand = none) (hpin : own.pinStage = .none)
    : Ensures cfg lim (csdoStop chan) own v fun _ own' v' =>
        Ended own v own' v' ∧ ¬own'.busyOn chan
          ∧ (¬own.busyOn chan → v' = v ∧ ∃ csdo, own' = { own with csdo := csdo }) := by
  have hdone (hidle : own.csdo chan = none ∨ own.csdo chan = some .stopped) : ¬own.busyOn chan := by
    rintro ⟨r, hnow⟩
    obtain hidle | hidle := hidle <;> simp [hidle] at hnow
  unfold csdoStop
  apply Ensures.bind
  apply Ensures.readOwn
  intro _ _
  cases hcsdo : own.csdo chan with
  | none => exact .ret ⟨.refl hhand, hdone (.inl hcsdo), fun _ => ⟨rfl, _, rfl⟩⟩
  | some csdo =>
    cases csdo with
    | stopped => exact .ret ⟨.refl hhand, hdone (.inr hcsdo), fun _ => ⟨rfl, _, rfl⟩⟩
    | _ =>
      apply Ensures.call (csdoAbortReq_spec hhand hpin)
      rintro _ own' v' ⟨hended, _, _, hsame⟩
      apply Ensures.step (fun _ _ => rfl) (fun _ _ _ => .setCsdo (by simp))
      intro _
      refine ⟨hended.trans (.setCsdo hended.hand _), ?_, ?_⟩
      . rintro ⟨r, hnow⟩
        simp at hnow
      . intro hnot
        obtain ⟨rfl, csdo, rfl⟩ := hsame hnot
        exact ⟨rfl, _, rfl⟩

theorem csdoDestroy_spec {chan : Chan} (hhand : v.hand = none) (hpin : own.pinStage = .none)
    : Ensures cfg lim (csdoDestroy chan) own v fun _ own' v' => Ended own v own' v' := by
  unfold csdoDestroy
  apply Ensures.call (csdoStop_spec hhand hpin)
  rintro _ own' v' ⟨hended, _⟩
  apply Ensures.step (fun _ _ => rfl) (fun _ _ _ => .setCsdo (by simp))
  intro _
  exact hended.trans (.setCsdo hended.hand _)

/-- The transfer of the node does not run on any Client-SDO any more. -/
theorem sdoAbortRunning_spec (hhand : v.hand = none) (hpin : own.pinStage = .none)
    (hplace : v.place r = .active node)
    : Ensures cfg lim (sdoAbortRunning node) own v fun _ own' v' =>
        Ended own v own' v' ∧ ∀ chan, own'.csdo chan ≠ some (.busy r) := by
  unfold sdoAbortRunning
  apply Ensures.bind
  apply Ensures.readOwn
  intro sh hinv
  obtain ⟨_, _, _, hnode, hnumNodes⟩ := hinv.active hplace
  have hbusy (chan : Chan) (hnow : own.csdo chan = some (.busy r))
      : chan = own.misc.chan node ∧ sdoGetClient own node = some chan := by
    obtain ⟨node', hplace', hchan, hmaster, hcan⟩ := hinv.lists.busy chan r hnow
    rw [hplace] at hplace'
    cases hplace'
    refine ⟨hchan, ?_⟩
    simp [sdoGetClient, hmaster, hnode, hnumNodes, ← hchan, hnow, hcan]
  split
  next chan hclient =>
    split
    next hrunning =>
      apply (csdoAbortReq_spec hhand hpin).mono
      rintro _ own' v' ⟨hended, hother, hidle, _⟩
      refine ⟨hended, ?_⟩
      intro chan' hnow
      by_cases heq : chan' = chan
      . exact hidle ⟨r, heq ▸ hnow⟩
      . rw [hother chan' heq] at hnow
        have hsame := (hbusy chan' hnow).2
        rw [hclient] at hsame
        exact heq (Option.some_inj.mp hsame).symm
    next hrunning =>
      apply Ensures.ret
      refine ⟨.refl hhand, ?_⟩
      intro chan' hnow
      have hsame := (hbusy chan' hnow).2
      rw [hclient] at hsame
      cases hsame
      simp [hnow, csdoRunning] at hrunning
  next hclient =>
    apply Ensures.ret
    refine ⟨.refl hhand, ?_⟩
    intro chan' hnow
    simp [hclient] at hbusy
    exact (hbusy chan' hnow).elim

/-- The bookkeeping and the Client-SDOs got ready for a transfer of the node. -/
structure Prepared (node : Nat) (own own' : Own ι κ) : Prop where
  active : own'.sdoActive = own.sdoActive
  pending : own'.sdoPending = own.sdoPending
  misc : own.misc.SameBut node own'.misc
  pinStage : own'.pinStage = own.pinStage
  busy : ∀ chan r, own'.csdo chan = some (.busy r) → own.csdo chan = some (.busy r)

namespace Prepared

variable {own' own'' : Own ι κ}

omit [DecidableEq ι] [DecidableEq κ] [Fintype ι] [Fintype κ] in
theorem refl : Prepared node own own := ⟨rfl, rfl, .refl .., rfl, fun _ _ => id⟩

omit [DecidableEq ι] [DecidableEq κ] [Fintype ι] [Fintype κ] in
theorem trans (h : Prepared node own own') (h' : Prepared node own' own'') : Prepared node own own''
    where
  active := h'.active.trans h.active
  pending := h'.pending.trans h.pending
  misc := h.misc.trans h'.misc
  pinStage := h'.pinStage.trans h.pinStage
  busy := fun chan r hnow => h.busy chan r (h'.busy chan r hnow)

omit [DecidableEq ι] [DecidableEq κ] [Fintype ι] [Fintype κ] in
theorem setCsdo (chan : Chan) (csdo : Csdo ι) (hcsdo : ∀ r, csdo ≠ .busy r)
    : Prepared node own { own with csdo := Function.update own.csdo chan (some csdo) } := by
  refine ⟨rfl, rfl, .refl .., rfl, ?_⟩
  intro chan' r hnow
  by_cases heq : chan' = chan
  . simp only [heq, Function.update_self, Option.some_inj] at hnow
    exact absurd hnow (hcsdo r)
  . simpa [heq] using hnow

end Prepared

theorem sdoSelectClient_spec (hnode : node ≠ 0) (hnumNodes : node ≤ numNodes)
    : Ensures cfg lim (sdoSelectClient node) own v fun client own' v' =>
        v' = v ∧ Prepared node own own' ∧ ∀ chan, client = .inl chan → chan = own.misc.chan node := by
  unfold sdoSelectClient
  apply Ensures.bind
  apply Ensures.readOwn
  intro _ _
  split
  next hpredefined =>
    have hchan : own.misc.chan node = .predefined node := by
      simp only [sdoUsesPredefined, decide_eq_true_eq] at hpredefined
      simp [Misc.chan, hpredefined]
    split
    next => exact .ret ⟨rfl, .refl, by simp⟩
    next =>
      split
      next => exact .ret ⟨rfl, .refl, by simp [hchan]⟩
      next =>
        apply Ensures.bind
        apply Ensures.pick
        intro created
        split
        next =>
          apply Ensures.bind
          apply Ensures.step (fun _ _ => rfl) (fun _ _ _ => .setCsdo (by simp))
          intro _
          exact .ret ⟨rfl, .setCsdo _ _ (by simp), by simp [hchan]⟩
        next => exact .ret ⟨rfl, .refl, by simp⟩
  next hpredefined =>
    have hchan : own.misc.chan node = .custom (own.misc.sdoChannel node) := by
      have hcustom : own.misc.sdoChannel node ≠ channelPredefined := by
        intro heq
        simp [sdoUsesPredefined, hnode, hnumNodes, heq] at hpredefined
      simp [Misc.chan, hcustom]
    apply Ensures.bind
    apply Ensures.pick
    intro valid
    dsimp only
    split
    next => exact .ret ⟨rfl, .refl, by simp [hchan]⟩
    next => exact .ret ⟨rfl, .refl, by simp⟩

theorem setStopPending_prepared {own₀ : Own ι κ} {stop : Bool} (h : Prepared node own₀ own)
    : Ensures cfg lim (setStopPending node stop) own v fun _ own' v' =>
        v' = v ∧ Prepared node own₀ own' := by
  apply (setStopPending_spec stop).mono
  rintro _ _ _ ⟨rfl, rfl⟩
  exact ⟨rfl, h.trans ⟨rfl, rfl, .update .., rfl, fun _ _ => id⟩⟩

theorem sdoPrepareClient_spec {chan : Chan}
    : Ensures cfg lim (sdoPrepareClient node chan) own v fun _ own' v' =>
        v' = v ∧ Prepared node own own' := by
  unfold sdoPrepareClient
  apply Ensures.bind
  apply Ensures.readOwn
  intro _ _
  split
  next =>
    dsimp only
    split
    next =>
      apply Ensures.bind
      apply Ensures.pick
      intro started
      split
      next =>
        apply Ensures.bind
        apply Ensures.step (fun _ _ => rfl) (fun _ _ _ => .setCsdo (by simp))
        intro _
        apply Ensures.call (setStopPending_prepared (.setCsdo _ _ (by simp)))
        rintro _ _ _ ⟨rfl, hprepared⟩
        exact .ret ⟨rfl, hprepared⟩
      next => exact .ret ⟨rfl, .refl⟩
    next =>
      apply Ensures.call (setStopPending_prepared .refl)
      rintro _ _ _ ⟨rfl, hprepared⟩
      exact .ret ⟨rfl, hprepared⟩
  next =>
    dsimp only
    split
    next => exact .ret ⟨rfl, .refl⟩
    next => exact .ret ⟨rfl, .refl⟩

/-- The node is ready for an application transfer. -/
structure Ready (own : Own ι κ) (node : Nat) : Prop where
  active : own.sdoActive node = none
  excludes : ¬own.misc.excludes node
  suspended : own.misc.gate.suspended node = false
  masterNmt : own.misc.masterNmt = true
  canNet : own.misc.canNet = true

omit [DecidableEq ι] [DecidableEq κ] [Fintype ι] [Fintype κ] in
theorem Ready.of_available (h : sdoNodeAvailable own.misc node) (hactive : own.sdoActive node = none)
    : Ready own node := by
  simp only [sdoNodeAvailable, Bool.not_eq_true', decide_eq_true_eq] at h
  refine ⟨hactive, ?_, h.2.2.2.2.1, h.1, h.2.1⟩
  rintro (hbooting | hcfg)
  . simp [hbooting] at h
  . exact hcfg h.2.2.2.2.2.2

omit [DecidableEq κ] [Fintype κ] in
theorem Misc.SameBut.chan {misc misc' : Misc κ} {other : Nat} (h : misc.SameBut other misc')
    (node : Nat) : misc'.chan node = misc.chan node := by
  obtain ⟨stop, rfl, _⟩ := h
  rfl

omit [DecidableEq ι] [DecidableEq κ] [Fintype ι] [Fintype κ] in
theorem Ready.prepared {own' : Own ι κ} {other : Nat} (h : Ready own node)
    (hprepared : Prepared other own own') : Ready own' node := by
  obtain ⟨stop, hmisc, _⟩ := hprepared.misc
  refine ⟨hprepared.active ▸ h.active, ?_, ?_, ?_, ?_⟩
  all_goals rw [hmisc]
  . exact h.excludes
  . exact h.suspended
  . exact h.masterNmt
  . exact h.canNet

/-- What the start of a transfer did: it runs, or the request is completed. -/
structure Started (r : ι) (node : Nat) (own : Own ι κ) (v : View ι) (own' : Own ι κ) (v' : View ι)
    : Prop where
  view : v' = v.put r .away ∨ v' = v.put r (.active node)
  active : ∀ other, other ≠ node → own'.sdoActive other = own.sdoActive other
  pending : own'.sdoPending = own.sdoPending
  misc : own.misc.SameBut node own'.misc
  pinStage : own'.pinStage = own.pinStage

theorem csdoRequest_spec {chan : Chan} (hhand : v.hand = none) (hplace : v.place r = .active node)
    (hbusy : ∀ chan, own.csdo chan ≠ some (.busy r)) (hpin : own.pinStage = .none)
    (hmaster : own.misc.masterNmt = true) (hcan : own.misc.canNet = true)
    (hsuspended : own.misc.gate.suspended node = false) (hchan : chan = own.misc.chan node)
    : Ensures cfg lim (csdoRequest r chan) own v fun failed own' v' =>
        v' = v.put r .away ∧ Freed node own own'
          ∨ v' = v ∧ own'.sdoActive = own.sdoActive ∧ own'.sdoPending = own.sdoPending
            ∧ own'.misc = own.misc ∧ own'.pinStage = own.pinStage
            ∧ (failed = true → own'.csdo = own.csdo) := by
  unfold csdoRequest
  apply Ensures.bind
  apply Ensures.read (by simp [hplace])
  intro _ _
  apply Ensures.bind
  apply Ensures.step (fun _ _ => rfl) (fun _ _ _ => .start hplace hsuspended)
  intro _
  apply Ensures.bind
  apply Ensures.exec
  intro sh input outcome own' sh' _ hrun _
  refine ⟨v, .look trivial, ?_⟩
  cases hrun
  cases input.outcome with
  | failed => exact .ret (.inr ⟨rfl, rfl, rfl, rfl, rfl, fun _ => rfl⟩)
  | started =>
    apply Ensures.bind
    refine Ensures.setBusy hplace ?_ ?_ ?_ ?_
    . exact hchan
    . exact hmaster
    . exact hcan
    exact .ret (.inr ⟨rfl, rfl, rfl, rfl, rfl, by simp⟩)
  | confirmed ac data alloc failed =>
    refine Ensures.call (sdoCon_spec hhand hplace ?_ ?_) ?_
    . exact hbusy
    . exact hpin
    . rintro _ own' _ ⟨rfl, hfreed⟩
      exact .ret (.inl ⟨rfl, hfreed.active, hfreed.pending, hfreed.csdo, hfreed.misc,
        hfreed.pinStage⟩)

theorem sdoStartActive_spec (hhand : v.hand = some r) (hplace : v.place r = .claimed node)
    (hpin : own.pinStage = .none) (hready : Ready own node)
    : Ensures cfg lim (sdoStartActive r) own v (fun _ own' v' => Started r node own v own' v') := by
  have hending : (v.place r).ending? = some .act := by simp [hplace, Place.ending?]
  -- a local error before the slot is taken
  have hfail (own₁ : Own ι κ) (err : RtErr) (hprepared : Prepared node own own₁)
      : Ensures cfg lim (sdoComplete r .localError err 0) own₁ v
          (fun _ own' v' => Started r node own v own' v') := by
    apply (sdoComplete_spec hending (by rw [hprepared.pinStage, hpin])
      (fun heq => by cases heq)).mono
    rintro _ _ _ ⟨rfl, rfl⟩
    exact ⟨.inl rfl, fun _ _ => by rw [hprepared.active], hprepared.pending, hprepared.misc,
      hprepared.pinStage⟩
  unfold sdoStartActive
  apply Ensures.bind
  apply Ensures.read (by simp [hplace])
  intro sh hinv
  obtain ⟨hnode, hvalid, hnumNodes⟩ := hinv.claimed hplace
  dsimp only
  rw [hnode]
  apply Ensures.call (sdoSelectClient_spec hvalid hnumNodes)
  rintro client own₁ _ ⟨rfl, hprepared, hchan⟩
  cases client with
  | inr err => exact hfail own₁ err hprepared
  | inl chan =>
    obtain rfl := hchan chan rfl
    apply Ensures.call sdoPrepareClient_spec
    rintro rejected own₂ _ ⟨rfl, hprepared'⟩
    have hprepared := hprepared.trans hprepared'
    cases rejected with
    | some err => exact hfail own₂ err hprepared
    | none =>
      apply Ensures.bind
      apply Ensures.readOwn
      intro sh hinv
      split
      next => exact hfail own₂ .busy hprepared
      next =>
        have hready₂ := hready.prepared hprepared
        have hbusy (chan : Chan) : own₂.csdo chan ≠ some (.busy r) := by
          intro hnow
          obtain ⟨node', hplace', _⟩ := hinv.lists.busy chan r hnow
          simp [hplace] at hplace'
        apply Ensures.bind
        apply Ensures.step (fun _ _ => rfl)
          (fun _ _ _ => .activate hplace hready₂.active hready₂.excludes hready₂.suspended)
        intro _
        refine Ensures.call (csdoRequest_spec rfl (View.put_place_self ..) ?_ ?_ ?_ ?_ ?_ ?_) ?_
        . exact hbusy
        . exact hprepared.pinStage.trans hpin
        . exact hready₂.masterNmt
        . exact hready₂.canNet
        . exact hready₂.suspended
        . exact (hprepared.misc.chan node).symm
        rintro failed own₃ v' hres
        apply Ensures.bind
        apply Ensures.readOwn
        intro _ _
        obtain ⟨rfl, hfreed⟩ | ⟨rfl, hactive, hpending, hmisc, hpin', hcsdo⟩ := hres
        . rw [if_neg (by simp [hfreed.active])]
          apply Ensures.ret
          refine ⟨.inl (by simp), ?_, ?_, ?_, ?_⟩
          . intro other hne
            rw [hfreed.active]
            simp [hne, hprepared.active]
          . exact hfreed.pending.trans hprepared.pending
          . exact hprepared.misc.trans hfreed.misc
          . exact hfreed.pinStage.trans hprepared.pinStage
        . have hother (other : Nat) (hne : other ≠ node)
              : own₃.sdoActive other = own.sdoActive other := by
            simp [hactive, hne, hprepared.active]
          split
          next hfailed =>
            apply Ensures.bind
            refine Ensures.step (fun _ _ => rfl)
              (fun _ _ _ => .release rfl (View.put_place_self ..) ?_) ?_
            . rw [hcsdo hfailed.1]
              exact hbusy
            intro _
            refine Ensures.mono (stopAndComplete_spec
              ⟨rfl, rfl, rfl, .refl .., rfl⟩ (hpin'.trans (hprepared.pinStage.trans hpin))) ?_
            rintro _ own₄ _ ⟨rfl, hfreed⟩
            refine ⟨.inl (by simp), ?_, ?_, ?_, ?_⟩
            . intro other hne
              rw [hfreed.active]
              simpa [hne] using hother other hne
            . exact hfreed.pending.trans (hpending.trans hprepared.pending)
            . exact hprepared.misc.trans (hmisc ▸ hfreed.misc)
            . exact hfreed.pinStage.trans (hpin'.trans hprepared.pinStage)
          next =>
            apply Ensures.ret
            exact ⟨.inr rfl, hother, hpending.trans hprepared.pending, hmisc ▸ hprepared.misc,
              hpin'.trans hprepared.pinStage⟩

end LelyRtt
