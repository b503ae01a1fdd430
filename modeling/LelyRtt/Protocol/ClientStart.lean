import LelyRtt.Protocol.ClientSpec

/-!
This module contains the specifications of the code that starts a transfer: the selection of the
Client-SDO, its preparation, the request to Lely, and the reap that starts pending requests.
-/

namespace LelyRtt

open Conc

variable {ι κ : Type} [DecidableEq ι] [DecidableEq κ] [Fintype ι] [Fintype κ] {cfg : BuildConfig}
  {own own' own'' : Own ι κ} {m : Mode ι} {r : ι} {node : Nat} {chan : Chan}

/-- Nothing else is noted about the other nodes than before. -/
structure Own.OnlyNode (node : Nat) (own own' : Own ι κ) : Prop where
  active : ∀ node', node' ≠ node → own'.sdoActive node' = own.sdoActive node'
  stop : ∀ node', node' ≠ node →
    own'.misc.sdoStopPending node' = own.misc.sdoStopPending node'

namespace Own.OnlyNode

omit [DecidableEq ι] [DecidableEq κ] [Fintype ι] [Fintype κ]

theorem refl : own.OnlyNode node own := ⟨fun _ _ => rfl, fun _ _ => rfl⟩

theorem trans (h : own.OnlyNode node own') (h' : own'.OnlyNode node own'')
    : own.OnlyNode node own'' where
  active node' hne := (h'.active node' hne).trans (h.active node' hne)
  stop node' hne := (h'.stop node' hne).trans (h.stop node' hne)

theorem of_same (h : own.SameClients own') : own.OnlyNode node own' where
  active _ _ := by rw [h.active]
  stop _ _ := by rw [h.stop]

theorem of_released (h : own.Released node own') : own.OnlyNode node own' where
  active node' hne := by rw [h.active, Function.update_of_ne hne]
  stop node' hne := by
    rw [h.stop]
    split
    . rw [Function.update_of_ne hne]
    . rfl

theorem setCsdo {csdo : Option (Csdo ι)}
    : own.OnlyNode node { own with csdo := Function.update own.csdo chan csdo } :=
  ⟨fun _ _ => rfl, fun _ _ => rfl⟩

theorem setActive {request : Option ι} {activated : List ι}
    : own.OnlyNode node
        {
          own with
            sdoActive := Function.update own.sdoActive node request
            activated := activated
        } where
  active node' hne := by simp [hne]
  stop _ _ := rfl

theorem setStopPending {pending : Bool}
    : own.OnlyNode node
        {
          own with
            misc :=
              {
                own.misc with
                  sdoStopPending := Function.update own.misc.sdoStopPending node pending
              }
        } where
  active _ _ := rfl
  stop node' hne := by simp [hne]

theorem reaped (h : own.OnlyNode node own') {node' : Nat} (hne : node' ≠ node)
    (hreaped : own.Reaped node') : own'.Reaped node' := by
  unfold Own.Reaped
  rw [h.active node' hne, h.stop node' hne]
  exact hreaped

end Own.OnlyNode

/-- The Client-SDO of the node is idle, and nothing but that is open about the node. -/
structure Own.Ready (own : Own ι κ) (node : Nat) : Prop where
  client : own.csdo (own.misc.chan node) = some .idle
  stop : own.misc.sdoStopPending node = false
  others : ∀ node', node' ≠ node → own.NodeOk node'
  foreign : own.csdo (.predefined node) ≠ some .foreign

namespace Own

omit [DecidableEq ι] [DecidableEq κ] [Fintype ι] [Fintype κ]

theorem SameClients.ready (h : own.SameClients own') (hready : own.Ready node) : own'.Ready node where
  client := by rw [h.csdo, h.chan, hready.client]
  stop := by rw [h.stop, hready.stop]
  others node' hne := h.nodeOk (hready.others node' hne)
  foreign := by
    rw [h.csdo]
    exact hready.foreign

/-- A node is not concerned with what is noted about another one. -/
theorem OnlyNode.nodeOk (h : own.OnlyNode node own') {node' : Nat} (hne : node' ≠ node)
    (hchannel : own'.misc.sdoChannel = own.misc.sdoChannel)
    (hcsdo : ∀ chan, own.misc.chan node' = chan ∨ chan = .predefined node' →
      own'.csdo chan = own.csdo chan)
    (hok : own.NodeOk node') : own'.NodeOk node' := by
  have hchan : own'.misc.chan node' = own.misc.chan node' := by simp [Misc.chan, hchannel]
  have huses : sdoUsesPredefined own'.misc node' = sdoUsesPredefined own.misc node' := by
    simp [sdoUsesPredefined, hchannel]
  constructor
  case active =>
    rw [h.active node' hne, hchan, hcsdo _ (.inl rfl), h.stop node' hne]
    exact hok.active
  case pending =>
    rw [h.stop node' hne, huses, hcsdo _ (.inr rfl)]
    exact hok.pending
  case quiet =>
    rw [huses, h.active node' hne, h.stop node' hne, ClientOff, hcsdo _ (.inr rfl)]
    exact hok.quiet
  case own =>
    rw [hcsdo _ (.inr rfl)]
    exact hok.own

/-- The predefined Client-SDO of a node concerns no other node. -/
theorem predefined_apart {misc : Misc κ} {node' : Nat} (hne : node' ≠ node)
    (h : misc.chan node' = chan ∨ chan = .predefined node') : chan ≠ .predefined node := by
  rintro rfl
  obtain h | h := h
  . exact hne (chan_eq_predefined h).symm
  . injection h with h
    exact hne h.symm

/-- The start of the node's transfer fails, or the transfer ends at once. -/
theorem Ready.released (h : own.Ready node) (hreleased : own.Released node own')
    : own'.Settled := by
  have hchan : own'.misc.chan node = own.misc.chan node := by simp [Misc.chan, hreleased.channel]
  have huses (node : Nat) : sdoUsesPredefined own'.misc node = sdoUsesPredefined own.misc node := by
    simp [sdoUsesPredefined, hreleased.channel]
  intro node'
  by_cases hne : node' = node
  . subst hne
    constructor
    case active => simp [hreleased.active]
    case pending =>
      rw [hreleased.stop, huses, hreleased.csdo]
      split
      next hpredefined => exact fun _ => ⟨hpredefined, chan_predefined hpredefined ▸ h.client⟩
      next => simp [h.stop]
    case quiet =>
      intro hpredefined _ hpending
      rw [huses] at hpredefined
      simp [hreleased.stop, hpredefined] at hpending
    case own =>
      rw [hreleased.csdo]
      exact h.foreign
  . exact (OnlyNode.of_released hreleased).nodeOk hne hreleased.channel
      (fun _ _ => by rw [hreleased.csdo]) (h.others node' hne)

end Own

/-- What has been chosen for a transfer with the node. -/
structure Own.Chosen (own : Own ι κ) (node : Nat) (chan : Chan) : Prop where
  chan_eq : chan = own.misc.chan node
  idle : own.sdoActive node = none
  fits : own.Settled ∨ own.Ready node

theorem sdoSelectClient_keeps (hset : own.Settled) (hidle : own.sdoActive node = none)
    (hnode : node ≠ 0) (hle : node ≤ numNodes)
    : Keeps cfg (sdoSelectClient node) own m fun client own' m' =>
        (match client with
          | .inl chan => own'.Chosen node chan
          | .inr _ => own'.Settled)
        ∧ own.OnlyNode node own' ∧ m.Same m' := by
  unfold sdoSelectClient
  apply Keeps.bind
  apply Keeps.readOwn
  intro sh _
  split
  next huses =>
    have hchan := chan_predefined huses
    split
    next => exact .ret ⟨hset, .refl, .busy⟩
    next =>
      split
      next => exact .ret ⟨⟨hchan.symm, hidle, .inl hset⟩, .refl, .busy⟩
      next hnone =>
        apply Keeps.bind
        apply Keeps.pick
        intro created
        cases created with
        | false => exact .ret ⟨hset, .refl, .trans .busy .busy⟩
        | true =>
          have hnone : own.csdo (.predefined node) = none := by simpa using hnone
          have hstop : own.misc.sdoStopPending node = false := by
            by_contra hpending
            have hcsdo := ((hset node).pending (by simpa using hpending)).2
            simp [hnone] at hcsdo
          apply Keeps.bind
          refine Keeps.step rfl trivial (fun _ _ => rfl) fun _ => ?_
          refine .ret ⟨⟨hchan.symm, hidle, .inr ?_⟩, .setCsdo, .trans .busy (.trans .busy .busy)⟩
          refine ⟨by simp [hchan], hstop, fun node' hne => ?_, by simp⟩
          refine (Own.OnlyNode.setCsdo : own.OnlyNode node _).nodeOk hne rfl ?_ (hset node')
          exact fun chan h => Function.update_of_ne (Own.predefined_apart hne h) ..
  next huses =>
    have hchan : own.misc.chan node = .custom (own.misc.sdoChannel node) := by
      have hother : own.misc.sdoChannel node ≠ channelPredefined := by
        intro heq
        exact huses (by simp [sdoUsesPredefined, hnode, hle, heq])
      simp [Misc.chan, hother]
    apply Keeps.bind
    apply Keeps.pick
    intro valid
    dsimp only
    split
    . exact .ret ⟨⟨hchan.symm, hidle, .inl hset⟩, .refl, .trans .busy .busy⟩
    . exact .ret ⟨hset, .refl, .trans .busy .busy⟩

/-- What has been prepared for a transfer with the node. -/
structure Own.Prepared (own : Own ι κ) (node : Nat) (chan : Chan) : Prop where
  chan_eq : chan = own.misc.chan node
  idle : own.sdoActive node = none
  ready : own.csdo chan = some .idle → own.Ready node
  settled : own.csdo chan ≠ some .idle → own.Settled

namespace Own.Chosen

omit [DecidableEq ι] [DecidableEq κ] [Fintype ι] [Fintype κ]

theorem not_ready (h : own.Chosen node chan) (hcsdo : own.csdo chan ≠ some .idle)
    : own.Settled := by
  apply h.fits.resolve_right
  intro hready
  exact hcsdo (h.chan_eq ▸ hready.client)

/-- The receiver does not have to be stopped any more. -/
theorem unstop (h : own.Chosen node chan)
    (hforeign : own.csdo (.predefined node) ≠ some .foreign)
    (hsame : own'.sdoActive = own.sdoActive ∧ own'.csdo = own.csdo
      ∧ own'.misc.sdoChannel = own.misc.sdoChannel)
    (hstop : own'.misc.sdoStopPending = Function.update own.misc.sdoStopPending node false)
    (huses : sdoUsesPredefined own.misc node) : own'.Prepared node chan := by
  obtain ⟨hactive, hcsdo', hchannel⟩ := hsame
  have hchan : own'.misc.chan node = own.misc.chan node := by simp [Misc.chan, hchannel]
  have hothers (node' : Nat) (hne : node' ≠ node) (hok : own.NodeOk node') : own'.NodeOk node' := by
    have honly : own.OnlyNode node own' :=
      ⟨fun _ _ => by rw [hactive], fun _ hne => by rw [hstop, Function.update_of_ne hne]⟩
    exact honly.nodeOk hne hchannel (fun _ _ => by rw [hcsdo']) hok
  have hothers (node' : Nat) (hne : node' ≠ node) : own'.NodeOk node' := by
    apply hothers node' hne
    obtain hset | hready := h.fits
    . exact hset node'
    . exact hready.others node' hne
  have hstop : own'.misc.sdoStopPending node = false := by rw [hstop, Function.update_self]
  constructor
  case chan_eq => rw [hchan, h.chan_eq]
  case idle => rw [hactive, h.idle]
  case ready =>
    intro hidle
    exact ⟨by rwa [hchan, ← h.chan_eq], hstop, hothers, by rwa [hcsdo']⟩
  case settled =>
    rw [hcsdo']
    intro hidle
    have hset := h.not_ready hidle
    intro node'
    by_cases hne : node' = node
    . subst hne
      have hoff : own.ClientOff node' := by
        apply (hset node').quiet huses h.idle
        by_contra hpending
        have hok := ((hset node').pending (by simpa using hpending)).2
        rw [← chan_predefined huses, ← h.chan_eq] at hok
        exact hidle hok
      refine ⟨?_, by simp [hstop], fun _ _ _ => ?_, by rwa [hcsdo']⟩
      . rw [hactive, h.idle]
        intro r h
        cases h
      . rw [ClientOff, hcsdo']
        exact hoff
    . exact hothers node' hne

end Own.Chosen

theorem sdoPrepareClient_keeps (hchosen : own.Chosen node chan)
    : Keeps cfg (sdoPrepareClient node chan) own m fun rejected own' m' =>
        (match rejected with
          | some _ => own'.Settled
          | none => own'.Prepared node chan)
        ∧ own.OnlyNode node own' ∧ m.Same m' := by
  have hforeign : own.csdo (.predefined node) ≠ some .foreign := by
    obtain hset | hready := hchosen.fits
    . exact (hset node).own
    . exact hready.foreign
  unfold sdoPrepareClient
  apply Keeps.bind
  apply Keeps.readOwn
  intro sh _
  dsimp only
  split
  next huses =>
    have hchan : chan = .predefined node := hchosen.chan_eq.trans (chan_predefined huses)
    split
    next hstopped =>
      have hstopped : own.csdo chan = some .stopped := by simpa using hstopped
      have hset := hchosen.not_ready (by simp [hstopped])
      apply Keeps.bind
      apply Keeps.pick
      intro started
      cases started with
      | false => exact .ret ⟨hset, .refl, .trans .busy .busy⟩
      | true =>
        apply Keeps.bind
        refine Keeps.step rfl (hchan ▸ trivial) (fun _ _ => rfl) fun _ => ?_
        apply Keeps.bind
        apply setStopPending_keeps
        have honly : own.OnlyNode node
            {
              own with
                csdo := Function.update own.csdo chan (some .idle)
                misc :=
                  {
                    own.misc with
                      sdoStopPending := Function.update own.misc.sdoStopPending node false
                  }
            } := .trans .setCsdo .setStopPending
        have hothers (node' : Nat) (hne : node' ≠ node) :=
          honly.nodeOk hne rfl
            (fun chan' h => Function.update_of_ne (hchan ▸ Own.predefined_apart hne h) ..)
            (hset node')
        refine .ret ⟨⟨hchosen.chan_eq, hchosen.idle, fun _ => ⟨?_, ?_, hothers, ?_⟩, ?_⟩, honly,
          .trans .busy (.trans .busy (.trans .busy .busy))⟩
        . change Function.update own.csdo chan (some .idle) (own.misc.chan node) = some .idle
          rw [← hchosen.chan_eq, Function.update_self]
        . simp
        . simp [hchan]
        . simp
    next hstopped =>
      apply Keeps.bind
      apply setStopPending_keeps
      refine .ret ⟨?_, .setStopPending, .trans .busy .busy⟩
      exact hchosen.unstop hforeign ⟨rfl, rfl, rfl⟩ rfl huses
  next huses =>
    split
    next hstopped =>
      have hstopped : own.csdo chan = some .stopped := by simpa using hstopped
      exact .ret ⟨hchosen.not_ready (by simp [hstopped]), .refl, .busy⟩
    next =>
      refine .ret ⟨⟨hchosen.chan_eq, hchosen.idle, fun hidle => ?_, hchosen.not_ready⟩, .refl, .busy⟩
      obtain hset | hready := hchosen.fits
      . refine ⟨hchosen.chan_eq ▸ hidle, ?_, fun node' _ => hset node', hforeign⟩
        by_contra hpending
        exact huses ((hset node).pending (by simpa using hpending)).1
      . exact hready

omit [DecidableEq ι] [DecidableEq κ] [Fintype ι] [Fintype κ] in
/-- A transfer has started on the Client-SDO of the node. -/
theorem Own.Ready.busy (h : own.Ready node) (hactive : own.sdoActive node = some r)
    : Own.Settled
        {
          own with
            csdo := Function.update own.csdo (own.misc.chan node) (some (.busy r))
        } := by
  intro node'
  by_cases hne : node' = node
  . subst hne
    constructor
    case active =>
      intro r' hactive'
      obtain rfl : r = r' := by simpa [hactive] using hactive'
      exact ⟨Function.update_self .., h.stop⟩
    case pending => simp [h.stop]
    case quiet => simp [hactive]
    case own =>
      simp only [Function.update_apply]
      split
      . simp
      . exact h.foreign
  . have hok := h.others node' hne
    have hother (huses : sdoUsesPredefined own.misc node')
        : Chan.predefined node' ≠ own.misc.chan node :=
      fun heq => hne (chan_eq_predefined heq.symm)
    constructor
    case active =>
      intro r' hactive'
      obtain ⟨hbusy, hpending⟩ := hok.active r' hactive'
      have hapart : own.misc.chan node' ≠ own.misc.chan node := by
        intro heq
        simp [heq, h.client] at hbusy
      exact ⟨(Function.update_of_ne hapart ..).trans hbusy, hpending⟩
    case pending =>
      intro hpending
      obtain ⟨huses, hidle⟩ := hok.pending hpending
      exact ⟨huses, by simpa [hother huses] using hidle⟩
    case quiet =>
      intro huses hnone hpending
      simpa [Own.ClientOff, hother huses] using hok.quiet huses hnone hpending
    case own =>
      simp only [Function.update_apply]
      split
      . simp
      . exact hok.own

theorem csdoRequest_keeps (hready : own.Ready node) (hactive : own.sdoActive node = some r)
    : Keeps cfg (csdoRequest r (own.misc.chan node)) own m fun failed own' m' =>
        (own'.Settled ∧ (failed = true → own'.sdoActive node = none)
          ∨ own'.Ready node ∧ failed = true ∧ own'.sdoActive node = some r)
        ∧ own.OnlyNode node own' ∧ m.Same m' := by
  unfold csdoRequest
  apply Keeps.bind
  refine Keeps.still (.exec trivial) fun _ own₁ m₁ hsame₁ hm₁ => ?_
  apply Keeps.bind
  refine Keeps.still (.exec trivial) fun _ own₂ m₂ hsame₂ hm₂ => ?_
  apply Keeps.bind
  refine Keeps.still (.exec trivial) fun outcome own₃ m₃ hsame₃ hm₃ => ?_
  have hsame := hsame₁.trans (hsame₂.trans hsame₃)
  have hm := hm₁.trans (hm₂.trans hm₃)
  have hready := hsame.ready hready
  have hactive : own₃.sdoActive node = some r := by rw [hsame.active, hactive]
  rw [← hsame.chan]
  cases outcome with
  | failed => exact .ret ⟨.inr ⟨hready, rfl, hactive⟩, .of_same hsame, hm⟩
  | started =>
    apply Keeps.bind
    refine Keeps.step rfl ?_ (fun _ _ => rfl) fun _ => ?_
    . cases hchan : own₃.misc.chan node with
      | predefined => trivial
      | custom => exact .inr ⟨r, .inr ⟨hchan ▸ hready.client, rfl⟩⟩
    . refine .ret ⟨.inl ⟨?_, by simp⟩, .trans (.of_same hsame) .setCsdo, hm.trans .busy⟩
      exact hready.busy hactive
  | confirmed ac data alloc failed =>
    apply Keeps.call (sdoCon_keeps node hactive)
    rintro _ own₄ m₄ ⟨hreleased, hm₄⟩
    refine .ret ⟨.inl ⟨hready.released hreleased, fun _ => ?_⟩,
      .trans (.of_same hsame) (.of_released hreleased), hm.trans hm₄⟩
    simp [hreleased.active]

theorem sdoStartActive_keeps (hset : own.Settled) (hidle : own.sdoActive node = none)
    (hnode : node ≠ 0) (hle : node ≤ numNodes) (hknown : m.known = some (r, node))
    : Keeps cfg (sdoStartActive r) own m fun _ own' m' =>
        own'.Settled ∧ own.OnlyNode node own' ∧ m.Same m' := by
  have hcomplete (own₁ : Own ι κ) (m₁ : Mode ι) (status : CompletionStatus) (err : RtErr)
      (ac : BitVec 32) (hset : own₁.Settled) (honly : own.OnlyNode node own₁) (hm : m.Same m₁)
      : Keeps cfg (sdoComplete r status err ac) own₁ m₁ fun _ own' m' =>
          own'.Settled ∧ own.OnlyNode node own' ∧ m.Same m' :=
    Keeps.still sdoComplete_still fun _ _ _ hsame hm' =>
      ⟨hsame.settled hset, honly.trans (.of_same hsame), hm.trans hm'⟩
  unfold sdoStartActive
  apply Keeps.bind
  apply Keeps.read
  intro sh _ hposted
  rw [(hposted r node hknown).2]
  apply Keeps.call (sdoSelectClient_keeps hset hidle hnode hle)
  rintro client own₁ m₁ ⟨hclient, honly₁, hm₁⟩
  have hm₁ : m.Same m₁ := .trans .busy hm₁
  cases client with
  | inr err => exact hcomplete own₁ m₁ _ _ _ hclient honly₁ hm₁
  | inl chan =>
    apply Keeps.call (sdoPrepareClient_keeps hclient)
    rintro rejected own₂ m₂ ⟨hrejected, honly₂, hm₂⟩
    have honly₂ := honly₁.trans honly₂
    have hm₂ := hm₁.trans hm₂
    cases rejected with
    | some err => exact hcomplete own₂ m₂ _ _ _ hrejected honly₂ hm₂
    | none =>
      apply Keeps.bind
      apply Keeps.readOwn
      intro sh _
      split
      next hne => exact hcomplete own₂ _ _ _ _ (hrejected.settled hne) honly₂ (hm₂.trans .busy)
      next heq =>
        have heq : own₂.csdo chan = some .idle := by simpa using heq
        have hready := hrejected.ready heq
        apply Keeps.bind
        refine Keeps.step rfl trivial (fun _ _ => rfl) fun _ => ?_
        obtain ⟨rfl, hidle₂, _, _⟩ := hrejected
        have hready₃ : Own.Ready
            {
              own₂ with
                sdoActive := Function.update own₂.sdoActive node (some r)
                activated := own₂.activated ++ (some r).toList
            } node :=
          ⟨hready.client, hready.stop,
            fun node' hne => Own.OnlyNode.nodeOk .setActive hne rfl (fun _ _ => rfl)
              (hready.others node' hne),
            hready.foreign⟩
        apply Keeps.call (csdoRequest_keeps hready₃ (by simp))
        rintro failed own₄ m₄ ⟨hrequested, honly₄, hm₄⟩
        have honly₄ := honly₂.trans (.trans .setActive honly₄)
        have hm₄ : m.Same m₄.busy := hm₂.trans (.trans .busy (.trans .busy (.trans hm₄ .busy)))
        apply Keeps.bind
        apply Keeps.readOwn
        intro sh _
        obtain ⟨hset₄, hnone⟩ | ⟨hready₄, hfailed, hactive₄⟩ := hrequested
        . rw [if_neg (by rintro ⟨hfailed, hactive⟩; simp [hnone hfailed] at hactive)]
          exact .ret ⟨hset₄, honly₄, hm₄⟩
        . rw [if_pos ⟨hfailed, hactive₄⟩]
          apply releaseSlot_keeps
          intro own₅ m₅ hreleased hm₅
          exact hcomplete own₅ m₅ _ _ _ (hready₄.released hreleased)
            (honly₄.trans (.of_released hreleased)) (hm₄.trans hm₅)

theorem sdoDispatch_keeps (hset : own.Settled) (hknown : m.known = some (r, node))
    : Keeps cfg (sdoDispatch cfg r) own m fun _ own' m' => own'.Settled ∧ m.Same m' := by
  have hbusy (own₁ : Own ι κ) (m₁ : Mode ι) (hsame : own.SameClients own₁) (hm : m.Same m₁)
      : Keeps cfg
          (do
            let claimed ← sdoClaim r .active
            if claimed then sdoComplete r .localError .busy 0 else pure ())
          own₁ m₁ fun _ own' m' => own'.Settled ∧ m.Same m' :=
    Keeps.still (.bind (sdoClaim_still (by simp)) fun _ => .ite_pure sdoComplete_still)
      fun _ _ _ hsame' hm' => ⟨(hsame.trans hsame').settled hset, hm.trans hm'⟩
  unfold sdoDispatch
  apply Keeps.bind
  apply Keeps.read
  intro sh _ hposted
  rw [(hposted r node hknown).2]
  dsimp only
  split
  next => exact .ret ⟨hset, .busy⟩
  next hnode =>
    apply Keeps.bind
    apply Keeps.readOwn
    intro sh _
    split
    next => exact hbusy own _ .refl (.trans .busy .busy)
    next =>
      split
      next =>
        apply Keeps.bind
        refine Keeps.still sdoPendingAppend_still fun appended own₁ m₁ hsame hm => ?_
        have hm : m.Same m₁ := .trans .busy (.trans .busy hm)
        split
        next => exact .ret ⟨hsame.settled hset, hm⟩
        next => exact hbusy own₁ m₁ hsame hm
      next hfree =>
        have hidle : own.sdoActive node = none := by
          by_contra hactive
          exact hfree (.inl (Option.isSome_iff_ne_none.mpr hactive))
        apply Keeps.bind
        refine Keeps.still (sdoClaim_still (by simp)) fun claimed own₁ m₁ hsame hm => ?_
        have hm : m.Same m₁ := .trans .busy (.trans .busy hm)
        split
        next =>
          apply (sdoStartActive_keeps (hsame.settled hset) (by rw [hsame.active, hidle])
            (by omega) (by omega) (by rw [hm.known, hknown])).mono
          exact fun _ _ _ h => ⟨h.1, hm.trans h.2.2⟩
        next => exact .ret ⟨hsame.settled hset, hm⟩

/-- The first request of a FIFO is noted with its node. -/
theorem Keeps.readPending {Q : Own ι κ → Own ι κ → Mode ι → Prop}
    (h : ∀ m', m'.work = m.work → (∀ r, own.sdoPending node = some r → m'.known = some (r, node)) →
      Q own own m')
    : Keeps cfg (LelyRtt.exec (.own : Op ι κ)) own m Q := by
  refine Keeps.exec (by trivial) ?_
  intro sh input b own' sh' hsound _ hrun
  cases hrun
  cases hpending : own.sdoPending node with
  | none => exact ⟨m.busy, .busy rfl, h _ rfl (by simp [hpending])⟩
  | some r =>
    obtain ⟨hposted, hnode⟩ := hsound.pending hpending
    refine ⟨{ m.busy with known := some (r, node) }, ⟨rfl, by simp [Mode.busy], ?_⟩, h _ rfl ?_⟩
    . exact .inr ⟨r, hposted, by rw [hnode]⟩
    . rintro r' hr'
      rw [hpending, Option.some_inj] at hr'
      rw [hr']

theorem sdoStartPending_keeps (hset : own.Settled) (hreaped : own.Reaped node) (hnode : node ≠ 0)
    (hle : node ≤ numNodes)
    : Keeps cfg (sdoStartPending node) own m fun again own' m' =>
        own'.Settled ∧ (again = false → own'.Reaped node) ∧ own.OnlyNode node own'
          ∧ m'.work = m.work := by
  unfold sdoStartPending
  apply Keeps.bind
  apply Keeps.readPending
  intro m₁ hwork₁ hknown
  split
  next => exact .ret ⟨hset, fun _ => hreaped, .refl, hwork₁⟩
  next hfree =>
    have hidle : own.sdoActive node = none := by
      by_contra hactive
      exact hfree (.inr (Option.isSome_iff_ne_none.mpr hactive))
    have hpending : own.misc.sdoStopPending node = false := hreaped.resolve_left (by simp [hidle])
    cases hhead : own.sdoPending node with
    | none => exact .ret ⟨hset, fun _ => hreaped, .refl, hwork₁⟩
    | some r =>
      have hknown := hknown r hhead
      apply Keeps.bind
      refine Keeps.still (.exec trivial) fun state own₂ m₂ hsame₂ hm₂ => ?_
      have hdone (again : Bool) (own' : Own ι κ) (m' : Mode ι) (hsame : own.SameClients own')
          (hm : m₁.Same m')
          : own'.Settled ∧ (again = false → own'.Reaped node) ∧ own.OnlyNode node own'
            ∧ m'.work = m.work :=
        ⟨hsame.settled hset, fun _ => .inr (by rw [hsame.stop, hpending]), .of_same hsame,
          hm.work.trans hwork₁⟩
      split
      next =>
        refine Keeps.still ?_ fun again own' m' hsame hm =>
          hdone again own' m' (hsame₂.trans hsame) (hm₂.trans hm)
        refine .op trivial fun request => .op trivial fun _ => .op trivial fun _ => ?_
        exact .op trivial fun _ => .bind sdoComplete_still fun _ => .ret _
      next =>
        apply Keeps.bind
        refine Keeps.still (.exec (by simp [Op.Still])) fun found own₃ m₃ hsame₃ hm₃ => ?_
        have hsame₃ := hsame₂.trans hsame₃
        have hm₃ := hm₂.trans hm₃
        cases found with
        | some st => exact .ret (hdone false own₃ m₃ hsame₃ hm₃)
        | none =>
          apply Keeps.bind
          refine Keeps.still (.exec trivial) fun request own₄ m₄ hsame₄ hm₄ => ?_
          apply Keeps.bind
          refine Keeps.still (.exec trivial) fun _ own₅ m₅ hsame₅ hm₅ => ?_
          apply Keeps.bind
          refine Keeps.still (.exec trivial) fun _ own₆ m₆ hsame₆ hm₆ => ?_
          have hsame := hsame₃.trans (hsame₄.trans (hsame₅.trans hsame₆))
          have hm := hm₃.trans (hm₄.trans (hm₅.trans hm₆))
          apply Keeps.call (sdoStartActive_keeps (hsame.settled hset) (by rw [hsame.active, hidle])
            hnode hle (by rw [hm.known, hknown]))
          rintro _ own₇ m₇ ⟨hset₇, honly, hm₇⟩
          apply Keeps.bind
          apply Keeps.readOwn
          intro sh _
          refine .ret ⟨hset₇, fun hsome => .inl ?_, .trans (.of_same hsame) honly,
            (hm.trans hm₇).work.trans hwork₁⟩
          simpa [Option.isSome_iff_ne_none] using hsome

/-- An idle Client-SDO is stopped without a confirmation. -/
theorem csdoStop_idle_keeps (hidle : own.csdo (.predefined node) = some .idle)
    : Keeps cfg (csdoStop (.predefined node)) own m fun _ own' m' =>
        own' = {
          own with
            csdo := Function.update own.csdo (.predefined node) (some .stopped)
        } ∧ m.Same m' := by
  unfold csdoStop
  apply Keeps.bind
  apply Keeps.readOwn
  intro sh _
  rw [hidle]
  apply Keeps.bind
  unfold csdoAbortReq
  apply Keeps.bind
  apply Keeps.readOwn
  intro sh _
  rw [hidle]
  refine .ret (Keeps.step rfl trivial (fun _ _ => rfl) fun _ => ?_)
  exact ⟨rfl, .trans .busy (.trans .busy .busy)⟩

/-- The receiver of a node without a transfer is stopped. -/
theorem stopClient_keeps (hset : own.Settled) (hidle : own.sdoActive node = none)
    (hpending : own.misc.sdoStopPending node = true)
    : Keeps cfg (sdoReapOne.stopClient node) own m fun _ own' m' =>
        own'.Settled ∧ own'.Reaped node ∧ own.OnlyNode node own' ∧ m'.work = m.work := by
  obtain ⟨huses, hcsdo⟩ := (hset node).pending hpending
  have hclear : own.Clear (.predefined node) := by
    refine .of_settled hset fun node' hchan => ?_
    rw [← chan_eq_predefined hchan, hidle]
  unfold sdoReapOne.stopClient
  apply Keeps.bind
  apply Keeps.readOwn
  intro sh _
  rw [hcsdo]
  apply Keeps.bind
  apply (csdoStop_idle_keeps hcsdo).mono
  rintro _ own₁ m₁ ⟨rfl, hm₁⟩
  apply Keeps.bind
  apply Keeps.readOwn
  intro sh _
  rw [if_pos (Function.update_self ..)]
  apply setStopPending_keeps
  refine ⟨?_, .inr (Function.update_self ..), .trans .setCsdo .setStopPending, hm₁.work⟩
  refine Own.Clear.settled (?_ : Own.Clear (.predefined node) _) (.inr (Function.update_self ..))
    (Function.update_self ..)
  exact (hclear.set (by simp)).unstop rfl rfl rfl rfl

/-- What a round for a node leaves, whether another one follows or not. -/
abbrev Own.Round (own : Own ι κ) (m : Mode ι) (node : Nat) : Unit ⊕ Unit → Own ι κ → Mode ι → Prop
  | .inl _ => fun own' m' => own'.Settled ∧ own.OnlyNode node own' ∧ m'.work = m.work
  | .inr _ => fun own' m' =>
    own'.Settled ∧ own'.Reaped node ∧ own.OnlyNode node own' ∧ m'.work = m.work

theorem sdoReapOne_keeps (hset : own.Settled) (hnode : node ≠ 0) (hle : node ≤ numNodes)
    : Keeps cfg (sdoReapOne node) own m fun _ own' m' =>
        own'.Settled ∧ own'.Reaped node ∧ own.OnlyNode node own' ∧ m'.work = m.work := by
  unfold sdoReapOne
  apply Keeps.loop
    (fun _ own' m' => own'.Settled ∧ own.OnlyNode node own' ∧ m'.work = m.work) ⟨hset, .refl, rfl⟩
  rintro _ own₁ m₁ ⟨hset₁, honly₁, hwork₁⟩
  apply Keeps.bind
  apply Keeps.readOwn
  intro sh _
  split
  next hactive =>
    exact .ret ⟨hset₁, .inl (Option.isSome_iff_ne_none.mp hactive), honly₁, hwork₁⟩
  next hactive =>
    have hidle : own₁.sdoActive node = none := by simpa using hactive
    have hrest (own₂ : Own ι κ) (m₂ : Mode ι) (hset₂ : own₂.Settled) (hreaped : own₂.Reaped node)
        (honly₂ : own₁.OnlyNode node own₂) (hwork₂ : m₂.work = m.work)
        : Keeps cfg
            (do
              let own : Own ι κ ← exec .own
              if own.misc.sdoStopPending node then
                pure (.inr ())
              else do
                let again : Bool ← sdoStartPending node
                if again then pure (.inl ()) else pure (.inr ()) : Owner ι κ (Unit ⊕ Unit))
            own₂ m₂ (own.Round m node) := by
      apply Keeps.bind
      apply Keeps.readOwn
      intro sh _
      split
      next => exact .ret ⟨hset₂, hreaped, honly₁.trans honly₂, hwork₂⟩
      next =>
        apply Keeps.call (sdoStartPending_keeps hset₂ hreaped hnode hle)
        rintro again own₃ m₃ ⟨hset₃, hreaped₃, honly₃, hwork₃⟩
        have honly₃ := honly₁.trans (honly₂.trans honly₃)
        have hwork₃ := hwork₃.trans hwork₂
        cases again with
        | false => exact .ret ⟨hset₃, hreaped₃ rfl, honly₃, hwork₃⟩
        | true => exact .ret ⟨hset₃, honly₃, hwork₃⟩
    split
    next hpending =>
      apply Keeps.call (stopClient_keeps hset₁ hidle hpending)
      rintro _ own₂ m₂ ⟨hset₂, hreaped, honly₂, hwork₂⟩
      apply (hrest own₂ m₂ hset₂ hreaped honly₂ (hwork₂.trans hwork₁)).mono
      intro answer _ _ h
      cases answer <;> exact h
    next hpending =>
      apply (hrest own₁ m₁.busy hset₁ (.inr (by simpa using hpending)) .refl hwork₁).mono
      intro answer _ _ h
      cases answer <;> exact h

theorem sdoReap_keeps (hset : own.Settled)
    : Keeps cfg sdoReap own m fun _ own' m' =>
        own'.Settled ∧ (∀ node, node ≠ 0 → node ≤ numNodes → own'.Reaped node)
          ∧ m'.work = m.work := by
  unfold sdoReap
  apply Keeps.forEach (fun nodes own' m' => own'.Settled
    ∧ (∀ node, node ≠ 0 → node ≤ numNodes → node ∉ nodes → own'.Reaped node)
    ∧ (∀ node ∈ nodes, node ≠ 0 ∧ node ≤ numNodes) ∧ m'.work = m.work)
  . refine ⟨hset, fun node hnode hle hmem => ?_, fun node hmem => ?_, rfl⟩
    . exact absurd (List.mem_range'_1.mpr ⟨by omega, by omega⟩) hmem
    . have hmem := List.mem_range'_1.mp hmem
      omega
  . rintro own' m' ⟨hset', hreaped, _, hwork⟩
    exact ⟨hset', fun node hnode hle => hreaped node hnode hle (by simp), hwork⟩
  . rintro node nodes own₁ m₁ ⟨hset₁, hreaped₁, hnodes, hwork₁⟩
    obtain ⟨hnode, hle⟩ := hnodes node List.mem_cons_self
    apply (sdoReapOne_keeps hset₁ hnode hle).mono
    rintro _ own₂ m₂ ⟨hset₂, hreaped₂, honly, hwork₂⟩
    refine ⟨hset₂, fun node' hnode' hle' hmem => ?_,
      fun node' hmem => hnodes node' (List.mem_cons_of_mem _ hmem), hwork₂.trans hwork₁⟩
    by_cases hne : node' = node
    . rw [hne]
      exact hreaped₂
    . exact honly.reaped hne (hreaped₁ node' hnode' hle' (by simp [hne, hmem]))

end LelyRtt
