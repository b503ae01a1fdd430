import LelyRtt.Protocol.Still

/-!
This module contains the specifications of the SDO code that touches Client-SDOs: confirmation, abort
and stop, the start of a transfer, cancellation, and the reap.
-/

namespace LelyRtt

open Conc

variable {ι κ : Type} [DecidableEq ι] [DecidableEq κ] [Fintype ι] [Fintype κ] {cfg : BuildConfig}
  {own own' : Own ι κ} {m : Mode ι} {sh : Shared ι κ} {r : ι} {node : Nat} {chan : Chan}

namespace Sound

/-- What is known of a request that is active. -/
theorem active (h : Sound cfg own sh) (hactive : own.sdoActive node = some r)
    : (sh.heap r).nodeId = node ∧ node ≠ 0 ∧ node ≤ numNodes ∧ (sh.heap r).runtime = true := by
  obtain ⟨v, hinv⟩ := h
  have hplace := (hinv.lists.active_iff node r).mp hactive
  have hnode := (hinv.requests r).node_eq node (by simp [hplace, Place.node?])
  have hfilled := (hinv.requests r).filled_of_held (by simp [hplace]) (by simp [hplace])
  exact ⟨hnode, hnode ▸ hfilled.2.1, hnode ▸ hfilled.2.2, hfilled.1⟩

theorem active_inj (h : Sound cfg own sh) {node' : Nat} (hactive : own.sdoActive node = some r)
    (hactive' : own.sdoActive node' = some r) : node' = node := by
  rw [← (h.active hactive).1, ← (h.active hactive').1]

/-- A transfer that runs on a Client-SDO is the active one of a node that uses it. -/
theorem busy (h : Sound cfg own sh) (hbusy : own.csdo chan = some (.busy r))
    : ∃ node, own.sdoActive node = some r ∧ chan = own.misc.chan node
      ∧ own.misc.masterNmt = true ∧ own.misc.canNet = true := by
  obtain ⟨v, hinv⟩ := h
  obtain ⟨node, hplace, hrest⟩ := hinv.lists.busy chan r hbusy
  exact ⟨node, (hinv.lists.active_iff node r).mpr hplace, hrest⟩

theorem pending (h : Sound cfg own sh) (hpending : own.sdoPending node = some r)
    : sh.Posted r ∧ (sh.heap r).nodeId = node := by
  obtain ⟨v, hinv⟩ := h
  have hmem : r ∈ v.fifo node := by
    rw [hinv.lists.pending_eq] at hpending
    exact List.mem_of_mem_head? hpending
  have hplace := (hinv.lists.mem_fifo node r).mp hmem
  refine ⟨hinv.posted_of_held ?_, (hinv.requests r).node_eq node ?_⟩
  . obtain hplace | hplace := hplace <;> simp [hplace]
  . obtain hplace | hplace := hplace <;> simp [hplace, Place.node?]

end Sound

/-- The active transfer of the node is released. -/
structure Own.Released (node : Nat) (own own' : Own ι κ) : Prop where
  active : own'.sdoActive = Function.update own.sdoActive node none
  csdo : own'.csdo = own.csdo
  channel : own'.misc.sdoChannel = own.misc.sdoChannel
  stop : own'.misc.sdoStopPending = if sdoUsesPredefined own.misc node then
    Function.update own.misc.sdoStopPending node true else own.misc.sdoStopPending

omit [DecidableEq ι] [DecidableEq κ] [Fintype ι] [Fintype κ] in
theorem Own.Released.same {own'' : Own ι κ} (h : own.Released node own')
    (hsame : own'.SameClients own'') : own.Released node own'' where
  active := hsame.active.trans h.active
  csdo := hsame.csdo.trans h.csdo
  channel := hsame.channel.trans h.channel
  stop := hsame.stop.trans h.stop

theorem setStopPending_keeps {pending : Bool} {Q : Unit → Own ι κ → Mode ι → Prop}
    (h : Q ()
      {
        own with
          misc :=
            {
              own.misc with
                sdoStopPending := Function.update own.misc.sdoStopPending node pending
            }
      } m.busy)
    : Keeps cfg (setStopPending node pending) own m Q :=
  Keeps.step rfl trivial (fun _ _ => rfl) fun _ => h

/-- The slot of the node is cleared, and its receiver has to be stopped. -/
theorem releaseSlot_keeps {α : Type} {p : Owner ι κ α} {Q : α → Own ι κ → Mode ι → Prop}
    (hp : ∀ own' m', own.Released node own' → m.Same m' → Keeps cfg p own' m' Q)
    : Keeps cfg
        (do
          exec (.setActive node none)
          if sdoUsesPredefined own.misc node then do
            setStopPending node true
            p
          else
            p)
        own m Q := by
  apply Keeps.bind
  refine Keeps.step rfl trivial (fun _ _ => rfl) fun _ => ?_
  split
  next hpredefined =>
    apply Keeps.bind
    apply setStopPending_keeps
    exact hp _ _ ⟨rfl, rfl, rfl, by simp [hpredefined]⟩ ⟨rfl, rfl⟩
  next hpredefined => exact hp _ _ ⟨rfl, rfl, rfl, by simp [hpredefined]⟩ ⟨rfl, rfl⟩

theorem sdoReleaseActive_keeps (hactive : own.sdoActive node = some r) (hnode : node ≤ numNodes)
    : Keeps cfg (sdoReleaseActive r node) own m fun _ own' m' =>
        own.Released node own' ∧ m.Same m' := by
  unfold sdoReleaseActive
  apply Keeps.bind
  apply Keeps.readOwn
  intro sh hsound
  rw [if_pos ⟨hnode, hactive⟩]
  apply Keeps.bind
  refine Keeps.step rfl trivial (fun _ _ => rfl) fun _ => ?_
  split
  next hpredefined =>
    apply setStopPending_keeps
    exact ⟨⟨rfl, rfl, rfl, by simp [hpredefined]⟩, rfl, rfl⟩
  next hpredefined => exact .ret ⟨⟨rfl, rfl, rfl, by simp [hpredefined]⟩, rfl, rfl⟩

theorem sdoFinishProtocol_keeps {ac : BitVec 32} (hactive : own.sdoActive node = some r)
    : Keeps cfg (sdoFinishProtocol r ac) own m fun _ own' m' =>
        own.Released node own' ∧ m.Same m' := by
  have hcomplete (own₁ : Own ι κ) (m₁ : Mode ι) (status : CompletionStatus) (ac : BitVec 32)
      (hreleased : own.Released node own₁) (hm : m.Same m₁)
      : Keeps cfg (sdoComplete r status .ok ac) own₁ m₁ fun _ own' m' =>
          own.Released node own' ∧ m.Same m' :=
    Keeps.still sdoComplete_still fun _ _ _ hsame hm' => ⟨hreleased.same hsame, hm.trans hm'⟩
  unfold sdoFinishProtocol
  apply Keeps.bind
  apply Keeps.read
  intro sh hsound _
  obtain ⟨hnode, _, hle, _⟩ := hsound.active hactive
  rw [hnode]
  apply Keeps.call (sdoReleaseActive_keeps hactive hle)
  rintro _ own₁ m₁ ⟨hreleased, hm⟩
  apply Keeps.bind
  apply Keeps.read
  intro sh _ _
  have hm : m.Same m₁.busy := .trans .busy (.trans hm .busy)
  split
  . exact hcomplete own₁ _ _ _ hreleased hm
  . split
    . exact hcomplete own₁ _ _ _ hreleased hm
    . exact hcomplete own₁ _ _ _ hreleased hm

/-- The confirmation of an active transfer releases it. -/
theorem sdoCon_keeps (node : Nat) {ac : BitVec 32} {data : List UInt8} {alloc : Bool}
    (hactive : own.sdoActive node = some r)
    : Keeps cfg (sdoCon r ac data alloc) own m fun _ own' m' =>
        own.Released node own' ∧ m.Same m' := by
  unfold sdoCon
  apply Keeps.bind
  apply Keeps.read
  intro sh hsound _
  obtain ⟨_, _, _, hruntime⟩ := hsound.active hactive
  split
  next =>
    unfold sdoUpCon
    apply Keeps.bind
    apply Keeps.read
    intro sh hsound _
    obtain ⟨hnode, _, hle, hruntime⟩ := hsound.active hactive
    rw [if_neg (by simp [hruntime])]
    split
    next =>
      rw [hnode]
      apply Keeps.call (sdoReleaseActive_keeps hactive hle)
      rintro _ own₁ m₁ ⟨hreleased, hm⟩
      exact Keeps.still sdoComplete_still fun _ _ _ hsame hm' =>
        ⟨hreleased.same hsame, .trans .busy (.trans .busy (.trans hm hm'))⟩
    next =>
      split
      next =>
        apply Keeps.bind
        refine Keeps.step rfl trivial (fun _ _ => rfl) fun _ => ?_
        exact (sdoFinishProtocol_keeps hactive).mono fun _ _ _ h => ⟨h.1, .trans .busy h.2⟩
      next => exact (sdoFinishProtocol_keeps hactive).mono fun _ _ _ h => ⟨h.1, .trans .busy h.2⟩
  next =>
    unfold sdoDnCon
    apply Keeps.bind
    apply Keeps.read
    intro sh hsound _
    obtain ⟨_, _, _, hruntime⟩ := hsound.active hactive
    rw [if_pos hruntime]
    exact (sdoFinishProtocol_keeps hactive).mono fun _ _ _ h => ⟨h.1, .trans .busy h.2⟩

omit [DecidableEq ι] [DecidableEq κ] [Fintype ι] [Fintype κ] in
theorem chan_predefined {misc : Misc κ} (h : sdoUsesPredefined misc node)
    : misc.chan node = .predefined node := by
  simp only [sdoUsesPredefined, Bool.decide_and, Bool.and_eq_true, decide_eq_true_eq] at h
  simp [Misc.chan, h.2.2]

omit [DecidableEq ι] [DecidableEq κ] [Fintype ι] [Fintype κ] in
/-- Only the node itself uses its predefined Client-SDO. -/
theorem chan_eq_predefined {misc : Misc κ} {node' : Nat} (h : misc.chan node = .predefined node')
    : node' = node := by
  unfold Misc.chan at h
  split at h
  . injection h with h
    exact h.symm
  . cases h

/-- A transfer of the node that ran is over. -/
def Own.Confirmed (node : Nat) (own own' : Own ι κ) : Prop :=
  Own.Released node
    { own with csdo := Function.update own.csdo (own.misc.chan node) (some .idle) } own'

namespace Own.Settled

omit [DecidableEq ι] [DecidableEq κ] [Fintype ι] [Fintype κ] in
/-- Two nodes have no transfer on one Client-SDO. -/
theorem chan_ne (hset : own.Settled) (hinj : ∀ node', own.sdoActive node' = some r → node' = node)
    (hactive : own.sdoActive node = some r) {node' : Nat} {r' : ι} (hne : node' ≠ node)
    (hactive' : own.sdoActive node' = some r') : own.misc.chan node' ≠ own.misc.chan node := by
  intro heq
  have hbusy := ((hset node).active r hactive).1
  have hbusy' := ((hset node').active r' hactive').1
  rw [heq, hbusy] at hbusy'
  injection hbusy' with hbusy'
  injection hbusy' with hbusy'
  exact hne (hinj node' (hbusy' ▸ hactive'))

omit [DecidableEq ι] [DecidableEq κ] [Fintype ι] [Fintype κ] in
theorem confirmed (hset : own.Settled)
    (hinj : ∀ node', own.sdoActive node' = some r → node' = node)
    (hactive : own.sdoActive node = some r) (h : own.Confirmed node own') : own'.Settled := by
  have hchan (node : Nat) : own'.misc.chan node = own.misc.chan node := by
    simp [Misc.chan, h.channel]
  have hpredefined (node : Nat)
      : sdoUsesPredefined own'.misc node = sdoUsesPredefined own.misc node := by
    simp [sdoUsesPredefined, h.channel]
  have hcsdo (chan : Chan) : own'.csdo chan
      = if chan = own.misc.chan node then some .idle else own.csdo chan := by
    rw [h.csdo]
    simp only [Function.update_apply]
  have hstop (node' : Nat) : own'.misc.sdoStopPending node'
      = if node' = node ∧ sdoUsesPredefined own.misc node then true
        else own.misc.sdoStopPending node' := by
    rw [h.stop]
    simp only [apply_ite (fun stop : Nat → Bool => stop node'), Function.update_apply]
    split <;> simp_all
  intro node'
  constructor
  case active =>
    intro r' hactive'
    rw [h.active, Function.update_apply] at hactive'
    split at hactive'
    next => cases hactive'
    next hne =>
      have hok := (hset node').active r' hactive'
      rw [hchan, hcsdo, if_neg (hset.chan_ne hinj hactive hne hactive'), hstop, if_neg (by simp [hne])]
      exact hok
  case pending =>
    rw [hstop, hpredefined, hcsdo]
    split
    next heq => exact fun _ => ⟨heq.1 ▸ heq.2, by rw [if_pos (by rw [chan_predefined heq.2, heq.1])]⟩
    next =>
      intro hpending
      have hok := (hset node').pending hpending
      refine ⟨hok.1, ?_⟩
      split
      next => rfl
      next => exact hok.2
  case quiet =>
    rw [hpredefined, hstop, h.active, ClientOff, hcsdo]
    intro huses hnone hpending
    have hne : node' ≠ node := by
      rintro rfl
      simp [huses] at hpending
    rw [if_neg (by simp [hne])] at hpending
    have hother : Chan.predefined node' ≠ own.misc.chan node :=
      fun heq => hne (chan_eq_predefined heq.symm)
    rw [if_neg hother]
    refine (hset node').quiet huses ?_ hpending
    simpa [hne] using hnone
  case own =>
    rw [hcsdo]
    split
    . simp
    . exact (hset node').own

end Own.Settled

/-- No node that uses the Client-SDO has a transfer, and everything else is settled. -/
structure Own.Clear (chan : Chan) (own : Own ι κ) : Prop where
  others : ∀ node, own.misc.chan node ≠ chan → own.NodeOk node
  idle : ∀ node, own.misc.chan node = chan → own.sdoActive node = none
  stop : ∀ node, own.misc.sdoStopPending node = true → sdoUsesPredefined own.misc node
  foreign : ∀ node, own.csdo (.predefined node) ≠ some .foreign

namespace Own.Clear

omit [DecidableEq ι] [DecidableEq κ] [Fintype ι] [Fintype κ]

theorem of_settled (hset : own.Settled)
    (hidle : ∀ node, own.misc.chan node = chan → own.sdoActive node = none) : own.Clear chan where
  others node _ := hset node
  idle := hidle
  stop node hpending := ((hset node).pending hpending).1
  foreign node := (hset node).own

theorem set (h : own.Clear chan) {csdo : Option (Csdo ι)}
    (hcsdo : csdo = some .foreign → ∀ node, chan ≠ .predefined node)
    : Own.Clear chan { own with csdo := Function.update own.csdo chan csdo } where
  others node hne := by
    have hok := h.others node hne
    have hother (huses : sdoUsesPredefined own.misc node) : Chan.predefined node ≠ chan :=
      chan_predefined huses ▸ hne
    constructor
    case active =>
      intro r hactive
      obtain ⟨hbusy, hpending⟩ := hok.active r hactive
      exact ⟨(Function.update_of_ne hne ..).trans hbusy, hpending⟩
    case pending =>
      intro hpending
      obtain ⟨huses, hidle⟩ := hok.pending hpending
      exact ⟨huses, by simpa [hother huses] using hidle⟩
    case quiet =>
      intro huses hnone hpending
      simpa [ClientOff, hother huses] using hok.quiet huses hnone hpending
    case own =>
      simp only [Function.update_apply]
      split
      next heq => exact fun hforeign => hcsdo hforeign node heq.symm
      next => exact hok.own
  idle := h.idle
  stop := h.stop
  foreign node := by
    simp only [Function.update_apply]
    split
    next heq => exact fun hforeign => hcsdo hforeign node heq.symm
    next => exact h.foreign node

/-- The receiver of a node does not have to be stopped any more. -/
theorem unstop (h : own.Clear (.predefined node)) (hactive : own'.sdoActive = own.sdoActive)
    (hcsdo : own'.csdo = own.csdo) (hchannel : own'.misc.sdoChannel = own.misc.sdoChannel)
    (hstop : own'.misc.sdoStopPending = Function.update own.misc.sdoStopPending node false)
    : own'.Clear (.predefined node) where
  others node' hne := by
    have hchan : own'.misc.chan node' = own.misc.chan node' := by simp [Misc.chan, hchannel]
    have huses : sdoUsesPredefined own'.misc node' = sdoUsesPredefined own.misc node' := by
      simp [sdoUsesPredefined, hchannel]
    have hok := h.others node' (hchan ▸ hne)
    constructor
    case active =>
      rw [hactive, hcsdo, hchan]
      intro r hactive
      obtain ⟨hbusy, hpending⟩ := hok.active r hactive
      refine ⟨hbusy, ?_⟩
      rw [hstop, Function.update_apply]
      split
      . rfl
      . exact hpending
    case pending =>
      rw [hstop, Function.update_apply, huses, hcsdo]
      split
      . simp
      . exact hok.pending
    case quiet =>
      rw [hstop, Function.update_apply, huses, hactive, ClientOff, hcsdo]
      intro hpredefined hnone hpending
      have hother : node' ≠ node := by
        rintro rfl
        exact hne (hchan ▸ chan_predefined hpredefined)
      rw [if_neg hother] at hpending
      exact hok.quiet hpredefined hnone hpending
    case own =>
      rw [hcsdo]
      exact hok.own
  idle node' := by
    simp only [Misc.chan, hchannel, hactive]
    exact h.idle node'
  stop node' := by
    rw [hstop, Function.update_apply, sdoUsesPredefined, hchannel]
    split
    . simp
    . exact h.stop node'
  foreign := hcsdo ▸ h.foreign

theorem settled_custom {number : Nat} (h : own.Clear (.custom number)) : own.Settled := by
  intro node
  by_cases heq : own.misc.chan node = .custom number
  . have huses : ¬sdoUsesPredefined own.misc node := by
      intro huses
      simp [chan_predefined huses] at heq
    refine ⟨?_, fun hpending => absurd (h.stop node hpending) huses, fun h => absurd h huses,
      h.foreign node⟩
    simp [h.idle node heq]
  . exact h.others node heq

theorem settled (h : own.Clear (.predefined node)) (hoff : own.ClientOff node)
    (hstop : own.misc.sdoStopPending node = false) : own.Settled := by
  intro node'
  by_cases heq : own.misc.chan node' = .predefined node
  . obtain rfl := chan_eq_predefined heq
    refine ⟨?_, ?_, fun _ _ _ => hoff, h.foreign node⟩
    . simp [h.idle node heq]
    . simp [hstop]
  . exact h.others node' heq

end Own.Clear

omit [DecidableEq ι] [DecidableEq κ] [Fintype ι] [Fintype κ] in
theorem guarded_confirm (hbusy : own.csdo chan = some (.busy r))
    : (Op.setCsdo chan (some .idle) : Op ι κ).Guarded own m := by
  cases chan with
  | predefined node => trivial
  | custom number => exact .inr ⟨r, .inl ⟨hbusy, rfl⟩⟩

/-- The Client-SDO becomes idle, and then the transfer is confirmed. -/
theorem confirm_keeps {ac : BitVec 32} {data : List UInt8} {alloc : Bool}
    (hactive : own.sdoActive node = some r) (hbusy : own.csdo (own.misc.chan node) = some (.busy r))
    : Keeps cfg
        (do
          exec (.setCsdo (own.misc.chan node) (some .idle))
          sdoCon r ac data alloc)
        own m fun _ own' m' => own.Confirmed node own' ∧ m.Same m' := by
  apply Keeps.bind
  refine Keeps.step rfl (guarded_confirm hbusy) (fun _ _ => rfl) fun _ => ?_
  refine Keeps.mono (sdoCon_keeps node hactive) fun _ _ _ h => ?_
  exact ⟨h.1, .trans .busy h.2⟩

theorem csdoAbortReq_keeps {ac : BitVec 32} (hactive : own.sdoActive node = some r)
    (hbusy : own.csdo (own.misc.chan node) = some (.busy r))
    : Keeps cfg (csdoAbortReq (own.misc.chan node) ac) own m fun _ own' m' =>
        own.Confirmed node own' ∧ m.Same m' := by
  unfold csdoAbortReq
  apply Keeps.bind
  apply Keeps.readOwn
  intro sh _
  rw [hbusy]
  apply (confirm_keeps hactive hbusy).mono
  exact fun _ _ _ h => ⟨h.1, .trans .busy h.2⟩

/-- The transfer of the node is aborted, and its slot is free then. -/
theorem sdoAbortRunning_keeps (hset : own.Settled) (hactive : own.sdoActive node = some r)
    : Keeps cfg (sdoAbortRunning node) own m fun _ own' m' =>
        own'.Settled ∧ own'.sdoActive node = none ∧ m.Same m' := by
  unfold sdoAbortRunning
  apply Keeps.bind
  apply Keeps.readOwn
  intro sh hsound
  have hbusy := ((hset node).active r hactive).1
  obtain ⟨node', hactive', _, hmaster, hcan⟩ := hsound.busy hbusy
  obtain ⟨_, hnode, hle, _⟩ := hsound.active hactive
  have hclient : sdoGetClient own node = some (own.misc.chan node) := by
    simp [sdoGetClient, hmaster, hcan, hnode, hle, hbusy]
  rw [hclient]
  dsimp only
  rw [hbusy, if_pos (show csdoRunning (some (.busy r)) = true from rfl)]
  apply (csdoAbortReq_keeps hactive hbusy).mono
  rintro _ own' m' ⟨hconfirmed, hm⟩
  refine ⟨hset.confirmed (fun _ h => hsound.active_inj hactive h) hactive hconfirmed, ?_,
    .trans .busy hm⟩
  rw [hconfirmed.active, Function.update_self]

theorem sdoCancelActive_keeps (hset : own.Settled)
    : Keeps cfg (sdoCancelActive node) own m fun _ own' m' =>
        own'.Settled ∧ own'.sdoActive node = none ∧ m.Same m' := by
  unfold sdoCancelActive
  apply Keeps.bind
  apply Keeps.readOwn
  intro sh _
  cases hactive : own.sdoActive node with
  | none => exact .ret ⟨hset, hactive, .busy⟩
  | some r =>
    apply Keeps.bind
    refine Keeps.step rfl trivial (fun _ _ => rfl) fun _ => ?_
    apply Keeps.call (sdoAbortRunning_keeps hset hactive)
    rintro _ own₁ m₁ ⟨hset₁, hnone, hm⟩
    apply Keeps.bind
    apply Keeps.readOwn
    intro sh _
    rw [if_neg (by simp [hnone])]
    exact .ret ⟨hset₁, hnone, .trans .busy (.trans hm .busy)⟩

theorem sdoCancelDispatch_keeps {id : BitVec 32} (hset : own.Settled)
    : Keeps cfg (sdoCancelDispatch node id) own m fun _ own' m' => own'.Settled ∧ m.Same m' := by
  have hpending (m₁ : Mode ι) (hm : m.Same m₁)
      : Keeps cfg
          (do
            let _found ← sdoCancelPending node id
            pure ())
          own m₁ fun _ own' m' => own'.Settled ∧ m.Same m' := by
    apply Keeps.bind
    exact Keeps.still sdoCancelPending_still fun _ _ _ hsame hm' =>
      .ret ⟨hsame.settled hset, hm.trans hm'⟩
  unfold sdoCancelDispatch
  split
  next => exact .ret ⟨hset, .refl⟩
  next =>
    apply Keeps.bind
    apply Keeps.readOwn
    intro sh _
    cases hactive : own.sdoActive node with
    | none => exact hpending _ .busy
    | some r =>
      apply Keeps.bind
      apply Keeps.read
      intro sh _ _
      split
      next => exact hpending _ .busy
      next =>
        apply Keeps.bind
        refine Keeps.step rfl trivial (fun _ _ => rfl) fun _ => ?_
        apply Keeps.call (sdoAbortRunning_keeps hset hactive)
        rintro _ own₁ m₁ ⟨hset₁, hnone, hm⟩
        apply Keeps.bind
        apply Keeps.readOwn
        intro sh _
        rw [if_neg (by simp [hnone])]
        exact .ret ⟨hset₁, .trans .busy (.trans hm .busy)⟩

/-- A Client-SDO is stopped: a transfer that runs on it is aborted first. -/
theorem csdoStop_keeps (chan : Chan) (hset : own.Settled)
    (hmanages : ∀ number, chan = .custom number → m.work.manages number)
    : Keeps cfg (csdoStop chan) own m fun _ own' m' =>
        own'.Clear chan ∧ (own'.csdo chan = none ∨ own'.csdo chan = some .stopped) ∧ m.Same m'
          ∧ own'.misc.sdoChannel = own.misc.sdoChannel
          ∧ ((∀ node, own.misc.chan node = chan → own.sdoActive node = none) →
            own'.sdoActive = own.sdoActive
              ∧ own'.misc.sdoStopPending = own.misc.sdoStopPending) := by
  have hguard (own : Own ι κ) {m' : Mode ι} (hm : m.Same m') (csdo : Option (Csdo ι))
      : (Op.setCsdo chan csdo : Op ι κ).Guarded own m' := by
    cases chan with
    | predefined node => trivial
    | custom number => exact .inl (hm.work ▸ hmanages number rfl)
  have hidle (hne : ∀ r, own.csdo chan ≠ some (.busy r)) (node : Nat)
      (hchan : own.misc.chan node = chan) : own.sdoActive node = none := by
    cases hactive : own.sdoActive node with
    | none => rfl
    | some r => exact absurd (hchan ▸ ((hset node).active r hactive).1) (hne r)
  have hdone (own₁ : Own ι κ) (m₁ : Mode ι) (hm : m.Same m₁) (hclear : own₁.Clear chan)
      (hchannel : own₁.misc.sdoChannel = own.misc.sdoChannel)
      (hstop : (∀ node, own.misc.chan node = chan → own.sdoActive node = none) →
        own₁.sdoActive = own.sdoActive ∧ own₁.misc.sdoStopPending = own.misc.sdoStopPending)
      : Keeps cfg (exec (.setCsdo chan (some .stopped))) own₁ m₁ fun _ own' m' =>
          own'.Clear chan ∧ (own'.csdo chan = none ∨ own'.csdo chan = some .stopped) ∧ m.Same m'
            ∧ own'.misc.sdoChannel = own.misc.sdoChannel
            ∧ ((∀ node, own.misc.chan node = chan → own.sdoActive node = none) →
              own'.sdoActive = own.sdoActive
                ∧ own'.misc.sdoStopPending = own.misc.sdoStopPending) := by
    refine Keeps.step rfl (hguard own₁ hm _) (fun _ _ => rfl) fun _ => ?_
    exact ⟨hclear.set (by simp), .inr (Function.update_self ..), hm.trans .busy, hchannel, hstop⟩
  unfold csdoStop
  apply Keeps.bind
  apply Keeps.readOwn
  intro sh hsound
  cases hcsdo : own.csdo chan with
  | none =>
    exact .ret ⟨.of_settled hset (hidle (by simp [hcsdo])), .inl hcsdo, .busy, rfl, fun _ => ⟨rfl, rfl⟩⟩
  | some csdo =>
    cases csdo with
    | stopped =>
      exact .ret ⟨.of_settled hset (hidle (by simp [hcsdo])), .inr hcsdo, .busy, rfl, fun _ => ⟨rfl, rfl⟩⟩
    | idle =>
      apply Keeps.bind
      unfold csdoAbortReq
      apply Keeps.bind
      apply Keeps.readOwn
      intro sh _
      rw [hcsdo]
      exact .ret (hdone own _ (.trans .busy .busy)
        (.of_settled hset (hidle (by simp [hcsdo]))) rfl fun _ => ⟨rfl, rfl⟩)
    | foreign =>
      apply Keeps.bind
      unfold csdoAbortReq
      apply Keeps.bind
      apply Keeps.readOwn
      intro sh _
      rw [hcsdo]
      refine Keeps.step rfl (hguard own (.trans .busy .busy) _) (fun _ _ => rfl) fun _ => ?_
      exact hdone _ _ (.trans .busy (.trans .busy .busy))
        (.set (.of_settled hset (hidle (by simp [hcsdo]))) (by simp)) rfl fun _ => ⟨rfl, rfl⟩
    | busy r =>
      obtain ⟨node, hactive, rfl, _⟩ := hsound.busy hcsdo
      apply Keeps.call (csdoAbortReq_keeps hactive hcsdo)
      rintro _ own₁ m₁ ⟨hconfirmed, hm⟩
      have hset₁ := hset.confirmed (fun _ h => hsound.active_inj hactive h) hactive hconfirmed
      apply hdone own₁ m₁ (.trans .busy hm) _ hconfirmed.channel
      . intro hnone
        simp [hnone node rfl] at hactive
      . apply Own.Clear.of_settled hset₁
        intro node' hchan
        cases hactive' : own₁.sdoActive node' with
        | none => rfl
        | some r' =>
          have hbusy := ((hset₁ node').active r' hactive').1
          simp [hchan, hconfirmed.csdo] at hbusy

theorem csdoDestroy_keeps (hset : own.Settled)
    (hmanages : ∀ number, chan = .custom number → m.work.manages number)
    : Keeps cfg (csdoDestroy chan) own m fun _ own' m' =>
        own'.Clear chan ∧ own'.csdo chan = none ∧ m.Same m'
          ∧ own'.misc.sdoChannel = own.misc.sdoChannel
          ∧ ((∀ node, own.misc.chan node = chan → own.sdoActive node = none) →
            own'.sdoActive = own.sdoActive
              ∧ own'.misc.sdoStopPending = own.misc.sdoStopPending) := by
  unfold csdoDestroy
  apply Keeps.call (csdoStop_keeps chan hset hmanages)
  rintro _ own₁ m₁ ⟨hclear, _, hm, hchannel, hstop⟩
  refine Keeps.step rfl ?_ (fun _ _ => rfl) fun _ => ?_
  . cases chan with
    | predefined node => trivial
    | custom number => exact .inl (hm.work ▸ hmanages number rfl)
  . exact ⟨hclear.set (by simp), Function.update_self .., hm.trans .busy, hchannel, hstop⟩

/-- The node has no transfer, and its receiver does not wait to be stopped. -/
def Own.Canceled (own : Own ι κ) (node : Nat) : Prop :=
  own.sdoActive node = none ∧ own.misc.sdoStopPending node = false

/-- No node has a transfer, and no receiver waits to be stopped. -/
def Own.Idle (own : Own ι κ) : Prop :=
  ∀ node, own.Canceled node

theorem sdoCancelActive_idle_keeps (hidle : own.Idle)
    : Keeps cfg (sdoCancelActive node) own m fun _ own' m' => own' = own ∧ m.Same m' := by
  unfold sdoCancelActive
  apply Keeps.bind
  apply Keeps.readOwn
  intro sh _
  rw [(hidle node).1]
  exact .ret ⟨rfl, .busy⟩

/-- What follows the cancellation of the active transfer. -/
theorem sdoCancelRest_keeps (hset : own.Settled) (hnone : own.sdoActive node = none)
    : Keeps cfg
        (do
          let own : Own ι κ ← exec .own
          exec (.setPending node none)
          sdoCancelDetached (own.sdoPending node)
          if sdoUsesPredefined own.misc node then csdoStop (.predefined node) else pure ()
          setStopPending node false)
        own m fun _ own' m' =>
          own'.Settled ∧ own'.Canceled node ∧ (own.Idle → own'.Idle) ∧ m.Same m' := by
  apply Keeps.bind
  apply Keeps.readOwn
  intro sh _
  apply Keeps.bind
  refine Keeps.still (.exec trivial) fun _ own₁ m₁ hsame₁ hm₁ => ?_
  apply Keeps.bind
  refine Keeps.still sdoCancelDetached_still fun _ own₂ m₂ hsame₂ hm₂ => ?_
  have hsame := hsame₁.trans hsame₂
  have hm : m.Same m₂ := .trans .busy (.trans hm₁ hm₂)
  have hset₂ := hsame.settled hset
  have hnone₂ : own₂.sdoActive node = none := by rw [hsame.active, hnone]
  split
  next huses =>
    apply Keeps.call (csdoStop_keeps (.predefined node) hset₂ (by simp))
    rintro _ own₃ m₃ ⟨hclear, hoff, hm₃, hchannel, hstop⟩
    have hsilent (node' : Nat) (hchan : own₂.misc.chan node' = .predefined node)
        : own₂.sdoActive node' = none := by
      rw [← chan_eq_predefined hchan, hnone₂]
    obtain ⟨hactive, hstop⟩ := hstop hsilent
    apply setStopPending_keeps
    refine ⟨?_, ⟨by rw [hactive, hnone₂], Function.update_self ..⟩, ?_, hm.trans (hm₃.trans .busy)⟩
    . refine Own.Clear.settled (?_ : Own.Clear (.predefined node) _) hoff (Function.update_self ..)
      exact hclear.unstop rfl rfl rfl rfl
    . intro hidle node'
      refine ⟨by rw [hactive, hsame.active, (hidle node').1], ?_⟩
      simp only [Function.update_apply]
      split
      . rfl
      . rw [hstop, hsame.stop, (hidle node').2]
  next huses =>
    have hpending : own₂.misc.sdoStopPending node = false := by
      by_contra hpending
      have hok := (hset₂ node).pending (by simpa using hpending)
      rw [hsame.predefined] at hok
      exact huses hok.1
    apply setStopPending_keeps
    rw [← hpending, Function.update_eq_self]
    refine ⟨hset₂, ⟨hnone₂, hpending⟩, fun hidle node' => ?_, hm.trans .busy⟩
    exact ⟨by rw [hsame.active, (hidle node').1], by rw [hsame.stop, (hidle node').2]⟩

theorem sdoCancelOne_keeps (hset : own.Settled)
    : Keeps cfg (sdoCancelOne node) own m fun _ own' m' =>
        own'.Settled ∧ own'.Canceled node ∧ (own.Idle → own'.Idle) ∧ m.Same m' := by
  unfold sdoCancelOne
  by_cases hidle : own.Idle
  . apply Keeps.call (sdoCancelActive_idle_keeps hidle)
    rintro _ own₁ m₁ ⟨rfl, hm⟩
    apply (sdoCancelRest_keeps hset (hidle node).1).mono
    exact fun _ _ _ h => ⟨h.1, h.2.1, h.2.2.1, hm.trans h.2.2.2⟩
  . apply Keeps.call (sdoCancelActive_keeps hset)
    rintro _ own₁ m₁ ⟨hset₁, hnone, hm⟩
    apply (sdoCancelRest_keeps hset₁ hnone).mono
    exact fun _ _ _ h => ⟨h.1, h.2.1, fun h => absurd h hidle, hm.trans h.2.2.2⟩

theorem sdoCancelNode_keeps (hset : own.Settled)
    : Keeps cfg (sdoCancelNode node) own m fun _ own' m' =>
        own'.Settled ∧ (node ≠ 0 → node ≤ numNodes → own'.Canceled node) ∧ (own.Idle → own'.Idle)
          ∧ m.Same m' := by
  unfold sdoCancelNode
  split
  next hnode => exact .ret ⟨hset, fun _ hle => absurd hle (by omega), id, .refl⟩
  next hnode =>
    by_cases hzero : node = 0
    . apply Keeps.forEach
        (fun _ own' m' => own'.Settled ∧ (own.Idle → own'.Idle) ∧ m.Same m') ⟨hset, id, .refl⟩
      . exact fun _ _ h => ⟨h.1, fun hne => absurd hzero hne, h.2⟩
      . rintro node' _ own₁ m₁ ⟨hset₁, hidle, hm⟩
        apply (sdoCancelOne_keeps hset₁).mono
        exact fun _ _ _ h => ⟨h.1, fun h' => h.2.2.1 (hidle h'), hm.trans h.2.2.2⟩
    . simp only [targets, hzero, ↓reduceIte, Prog.forEach]
      apply Keeps.bind
      apply (sdoCancelOne_keeps hset).mono
      rintro _ own₁ m₁ ⟨hset₁, hcanceled, hidle, hm⟩
      exact .ret ⟨hset₁, fun _ _ => hcanceled, hidle, hm⟩

end LelyRtt
