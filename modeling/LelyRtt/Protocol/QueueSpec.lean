import LelyRtt.Protocol.SdoSpec

/-!
This module contains the specifications of the functions that dispatch requests, keep the FIFOs of
the nodes and cancel what is in them.
-/

namespace LelyRtt

open Conc

variable {ι κ : Type} [DecidableEq ι] [DecidableEq κ] [Fintype ι] [Fintype κ]
  {cfg : BuildConfig} {lim : Limits} {own : Own ι κ} {v : View ι} {r : ι} {node : Nat}

/-- A request that could not be claimed was canceled in the queue. -/
theorem Inv.fresh_state {sh : Shared ι κ} (h : Inv cfg lim own sh v) (hplace : v.place r = .fresh node)
    (hne : (sh.heap r).state ≠ .queued) : (sh.heap r).state = .cancelPending := by
  have hadmits := (h.requests r).place_admits
  simp only [hplace, Place.admits, decide_eq_true_eq] at hadmits
  exact hadmits.resolve_left hne

/-- The node of a request that was taken out of the queue. -/
theorem Inv.fresh {sh : Shared ι κ} (h : Inv cfg lim own sh v) (hplace : v.place r = .fresh node)
    : (sh.heap r).nodeId = node ∧ node ≠ 0 ∧ node ≤ numNodes := by
  have hnode := (h.requests r).node_eq node (by simp [hplace, Place.node?])
  have hfilled := (h.requests r).filled_of_held (by simp [hplace]) (by simp [hplace])
  exact ⟨hnode, hnode ▸ hfilled.2⟩

theorem sdoClaim_spec {desired : ReqState} {place : Place} (hplace : v.place r = .fresh node)
    (hpin : own.pinStage = .none) (hdesired : desired.staged = false)
    (hclaim : ∀ sh, Ghost cfg lim (.casState r .queued desired) own sh (none : Option ReqState) v
      (v.put r place))
    : Ensures cfg lim (sdoClaim r desired) own v fun claimed own' v' =>
        own' = own ∧ v' = v.put r (if claimed then place else .away) := by
  unfold sdoClaim
  apply Ensures.bind
  apply Ensures.cas hdesired
  . intro sh _ _
    exact ⟨_, hclaim sh, .ret ⟨rfl, rfl⟩⟩
  . intro sh hinv hne
    refine ⟨_, .claimFailed hplace hdesired, ?_⟩
    rw [hinv.fresh_state hplace hne]
    dsimp only
    rw [if_pos rfl]
    apply Ensures.bind
    apply Ensures.step (fun _ _ => rfl) (fun _ _ _ => .touchCancel (by simp))
    intro _
    have hending : ((v.put r (.ending .pend false false)).place r).ending? = some .pend := by
      simp [Place.ending?]
    apply Ensures.call (sdoComplete_spec hending hpin (fun _ => ⟨rfl, rfl, rfl⟩))
    rintro _ _ _ ⟨rfl, rfl⟩
    exact .ret ⟨rfl, by simp⟩

/-- The walk over the FIFO ends at its tail, and then there is room for one more request. -/
theorem sdoPendingTail_spec
    : Ensures cfg lim (sdoPendingTail cfg node) own v fun tail own' v' =>
        own' = own ∧ v' = v ∧ ∀ last, tail = some last →
          (v.fifo node).length < cfg.sdoQueueDepth ∧ (v.fifo node).getLast? = last := by
  unfold sdoPendingTail
  apply Ensures.bind
  apply Ensures.readOwn
  intro sh hinv
  apply Ensures.loop fun (s : Option ι × Option ι × Nat) own' v' => own' = own ∧ v' = v
    ∧ ∃ front rest, v.fifo node = front ++ rest ∧ s = (rest.head?, front.getLast?, front.length)
      ∧ front.length < cfg.sdoQueueDepth
  . refine ⟨rfl, rfl, [], v.fifo node, rfl, ?_, cfg.sdoQueueDepth_pos⟩
    simp [hinv.lists.pending_eq]
  . rintro s own v ⟨rfl, rfl, front, rest, hfifo, rfl, hlength⟩
    cases rest with
    | nil =>
      apply Ensures.ret
      refine ⟨rfl, rfl, ?_⟩
      rintro last heq
      cases heq
      simp [hfifo, hlength]
    | cons cursor rest =>
      unfold sdoPendingTail.walk
      dsimp only [List.head?_cons]
      split
      next => exact .ret ⟨rfl, rfl, by simp⟩
      next hroom =>
        have hheld : v.place cursor ≠ .away := by
          have hmem := (hinv.lists.mem_fifo node cursor).mp (by simp [hfifo])
          obtain hplace | hplace := hmem <;> simp [hplace]
        apply Ensures.bind
        apply Ensures.read hheld
        intro sh hinv
        have hnext : (sh.heap cursor).next = rest.head? := by
          have hthreaded := hinv.lists.fifo_threaded node
          rw [hfifo] at hthreaded
          exact hthreaded.next_eq
        apply Ensures.ret
        refine ⟨rfl, rfl, front ++ [cursor], rest, by simp [hfifo], by simp [hnext], ?_⟩
        simp only [List.length_append, List.length_singleton]
        omega

/-- Only the node was worked on, and nothing is in the hand of the owner. -/
structure Worked (node : Nat) (own : Own ι κ) (v : View ι) (own' : Own ι κ) (v' : View ι) : Prop
    where
  rest : v'.Rest
  fifo : ∀ other, other ≠ node → v'.fifo other = v.fifo other
  settled : ∀ other, other ≠ node → v'.settled other = v.settled other
  phase : v'.phase = v.phase
  active : ∀ other, other ≠ node → own'.sdoActive other = own.sdoActive other
  misc : own.misc.SameBut node own'.misc
  pinStage : own'.pinStage = own.pinStage

namespace Worked

variable {own' own'' : Own ι κ} {v' v'' : View ι}

omit [DecidableEq ι] [DecidableEq κ] [Fintype ι] [Fintype κ] in
theorem refl (hrest : v.Rest) : Worked node own v own v :=
  ⟨hrest, fun _ _ => rfl, fun _ _ => rfl, rfl, fun _ _ => rfl, .refl .., rfl⟩

omit [DecidableEq ι] [DecidableEq κ] [Fintype ι] [Fintype κ] in
theorem trans (h : Worked node own v own' v') (h' : Worked node own' v' own'' v'')
    : Worked node own v own'' v'' where
  rest := h'.rest
  fifo other hne := (h'.fifo other hne).trans (h.fifo other hne)
  settled other hne := (h'.settled other hne).trans (h.settled other hne)
  phase := h'.phase.trans h.phase
  active other hne := (h'.active other hne).trans (h.active other hne)
  misc := h.misc.trans h'.misc
  pinStage := h'.pinStage.trans h.pinStage

omit [DecidableEq κ] [Fintype ι] [Fintype κ] in
/-- The request left the hand of the owner. -/
theorem put {place : Place} (hdetached : v.detached = []) (hplace : place.inHand = false)
    : Worked node own v own (v.put r place) :=
  ⟨⟨by simp [View.put, hplace], hdetached⟩, fun _ _ => rfl, fun _ _ => rfl, rfl, fun _ _ => rfl,
    .refl .., rfl⟩

omit [DecidableEq ι] [DecidableEq κ] [Fintype ι] [Fintype κ] in
theorem setFifo (fifo : List ι) (hrest : v.Rest) : Worked node own v own (v.setFifo node fifo) :=
  ⟨hrest, fun _ hne => Function.update_of_ne hne .., fun _ hne => Function.update_of_ne hne .., rfl,
    fun _ _ => rfl, .refl .., rfl⟩

omit [DecidableEq ι] [DecidableEq κ] [Fintype ι] [Fintype κ] in
theorem setSettled (settled : Settled) (hrest : v.Rest)
    : Worked node own v own (v.setSettled node settled) :=
  ⟨hrest, fun _ _ => rfl, fun _ hne => Function.update_of_ne hne .., rfl, fun _ _ => rfl, .refl ..,
    rfl⟩

omit [DecidableEq ι] [DecidableEq κ] [Fintype ι] [Fintype κ] in
theorem setPending (pending : Nat → Option ι) (h : Worked node own v own' v')
    : Worked node own v { own' with sdoPending := pending } v' :=
  ⟨h.rest, h.fifo, h.settled, h.phase, h.active, h.misc, h.pinStage⟩

omit [DecidableEq κ] [Fintype ι] [Fintype κ] in
/-- The owner took the request out of the FIFO before it went on. -/
theorem popped {place : Place} {fifo : List ι} {pending : Nat → Option ι}
    (h : Worked node { own with sdoPending := pending } ((v.put r place).setFifo node fifo) own' v')
    : Worked node own v own' v' where
  rest := h.rest
  fifo other hne := (h.fifo other hne).trans (by simp [View.setFifo, View.put, hne])
  settled other hne := (h.settled other hne).trans (by simp [View.setFifo, View.put, hne])
  phase := h.phase
  active := h.active
  misc := h.misc
  pinStage := h.pinStage

omit [DecidableEq κ] [Fintype ι] [Fintype κ] in
theorem started (hdetached : v.detached = []) (h : Started r node own v own' v')
    : Worked node own v own' v' := by
  have hput (place : Place) (hplace : place.inHand = false) (hview : v' = v.put r place)
      : Worked node own v own' v' := by
    subst hview
    exact ⟨⟨by simp [View.put, hplace], hdetached⟩, fun _ _ => rfl, fun _ _ => rfl, rfl, h.active,
      h.misc, h.pinStage⟩
  obtain hview | hview := h.view
  . exact hput .away rfl hview
  . exact hput (.active node) rfl hview

end Worked

theorem sdoPendingAppend_spec (hplace : v.place r = .fresh node) (hdetached : v.detached = [])
    (hpin : own.pinStage = .none) (hsuspended : own.misc.gate.suspended node = false)
    : Ensures cfg lim (sdoPendingAppend cfg r) own v fun appended own' v' =>
        if appended then Worked node own v own' v' else own' = own ∧ v' = v := by
  unfold sdoPendingAppend
  apply Ensures.bind
  apply Ensures.read (by simp [hplace])
  intro sh hinv
  rw [(hinv.fresh hplace).1]
  apply Ensures.call sdoPendingTail_spec
  rintro tail own v ⟨rfl, rfl, htail⟩
  cases tail with
  | none => exact .ret ⟨rfl, rfl⟩
  | some last =>
    obtain ⟨hroom, hlast⟩ := htail last rfl
    apply Ensures.call (sdoClaim_spec hplace hpin rfl fun _ => .claimPending hplace)
    rintro claimed own _ ⟨rfl, rfl⟩
    cases claimed with
    | false => exact .ret (.put hdetached rfl)
    | true =>
      apply Ensures.bind
      apply Ensures.step (fun _ _ => rfl) (fun _ _ _ => .clearJoining (View.put_place_self ..))
      intro _
      dsimp only
      rw [View.put_put]
      cases last with
      | none =>
        have hnil : v.fifo node = [] := List.getLast?_eq_none_iff.mp hlast
        apply Ensures.bind
        apply Ensures.step (fun _ _ => rfl)
          (fun _ _ _ => .linkFirst (View.put_place_self ..) hnil hsuspended)
        intro _
        rw [View.put_put]
        exact .ret ((Worked.put hdetached rfl).trans
          (.setPending _ (.setFifo _ ⟨by simp [View.put, Place.inHand], hdetached⟩)))
      | some tail =>
        obtain ⟨front, hfront⟩ := List.getLast?_eq_some_iff.mp hlast
        apply Ensures.bind
        apply Ensures.step (fun _ _ => rfl)
          (fun _ _ _ => .link (View.put_place_self ..) hfront hroom hsuspended)
        intro _
        rw [View.put_put]
        exact .ret ((Worked.put hdetached rfl).trans
          (.setFifo _ ⟨by simp [View.put, Place.inHand], hdetached⟩))

/-- A request that cannot get a transfer is claimed to be completed with a local error. -/
theorem claimDoomed_spec {err : RtErr} (hplace : v.place r = .fresh node) (hdetached : v.detached = [])
    (hpin : own.pinStage = .none)
    : Ensures cfg lim
        (do
          let claimed ← sdoClaim r .active
          if claimed then sdoComplete r .localError err 0 else pure ())
        own v fun _ own' v' => Worked node own v own' v' := by
  apply Ensures.call (sdoClaim_spec hplace hpin rfl fun _ => .claimDoomed hplace)
  rintro claimed own _ ⟨rfl, rfl⟩
  cases claimed with
  | false => exact .ret (.put hdetached rfl)
  | true =>
    rw [if_pos rfl, if_pos rfl]
    have hending : ((v.put r (.ending .act false false)).place r).ending? = some .act := by
      simp [Place.ending?]
    apply (sdoComplete_spec hending hpin (fun heq => by cases heq)).mono
    rintro _ _ _ ⟨rfl, rfl⟩
    rw [View.put_put]
    exact .put hdetached rfl

theorem sdoDispatch_spec (hplace : v.place r = .fresh node) (hdetached : v.detached = [])
    (hpin : own.pinStage = .none)
    : Ensures cfg lim (sdoDispatch cfg r) own v fun _ own' v' => Worked node own v own' v' := by
  unfold sdoDispatch
  apply Ensures.bind
  apply Ensures.read (by simp [hplace])
  intro sh hinv
  obtain ⟨hnode, hvalid, hnumNodes⟩ := hinv.fresh hplace
  dsimp only
  rw [hnode, if_neg (by omega)]
  apply Ensures.bind
  apply Ensures.readOwn
  intro sh hinv
  split
  next => exact claimDoomed_spec hplace hdetached hpin
  next havailable =>
    split
    next =>
      have hsuspended : own.misc.gate.suspended node = false := by
        have havailable : sdoNodeAvailable own.misc node := by simpa using havailable
        simp only [sdoNodeAvailable, Bool.not_eq_true', decide_eq_true_eq] at havailable
        exact havailable.2.2.2.2.1
      apply Ensures.call (sdoPendingAppend_spec hplace hdetached hpin hsuspended)
      intro appended own' v' hres
      cases appended with
      | true => exact .ret hres
      | false =>
        obtain ⟨rfl, rfl⟩ := hres
        exact claimDoomed_spec hplace hdetached hpin
    next hidle =>
      simp only [Option.isSome_iff_ne_none, not_or, not_not] at hidle
      have hnil : v.fifo node = [] := by
        simpa [hidle.2] using (hinv.lists.pending_eq node).symm
      apply Ensures.call (sdoClaim_spec hplace hpin rfl fun _ => .claimActive hplace hnil hidle.1)
      rintro claimed own _ ⟨rfl, rfl⟩
      cases claimed with
      | false => exact .ret (.put hdetached rfl)
      | true =>
        have hready : Ready own node := .of_available (by simpa using havailable) hidle.1
        rw [if_pos rfl, if_pos rfl]
        apply (sdoStartActive_spec (by simp [View.put, Place.inHand])
          (View.put_place_self ..) hpin hready).mono
        rintro _ own' v' hstarted
        have hview : v' = v.put r .away ∨ v' = v.put r (.active node) := by
          simpa using hstarted.view
        exact .started hdetached ⟨hview, hstarted.active, hstarted.pending, hstarted.misc,
          hstarted.pinStage⟩

/-- Transfers may have ended and requests may have been canceled, and no request was added. -/
structure Swept (own : Own ι κ) (v : View ι) (own' : Own ι κ) (v' : View ι) : Prop where
  rest : v'.Rest
  fifo : ∀ node, v.fifo node = [] → v'.fifo node = []
  phase : v'.phase = v.phase
  active : ∀ node, own'.sdoActive node = own.sdoActive node ∨ own'.sdoActive node = none
  localId : own'.misc.localId = own.misc.localId
  nmt : own'.misc.booting = own.misc.booting ∧ own'.misc.cfgActive = own.misc.cfgActive
  pinStage : own'.pinStage = own.pinStage

namespace Swept

variable {own' own'' : Own ι κ} {v' v'' : View ι}

omit [DecidableEq ι] [DecidableEq κ] [Fintype ι] [Fintype κ] in
theorem refl (hrest : v.Rest) : Swept own v own v :=
  ⟨hrest, fun _ => id, rfl, fun _ => .inl rfl, rfl, ⟨rfl, rfl⟩, rfl⟩

omit [DecidableEq ι] [DecidableEq κ] [Fintype ι] [Fintype κ] in
theorem trans (h : Swept own v own' v') (h' : Swept own' v' own'' v'') : Swept own v own'' v'' where
  rest := h'.rest
  fifo node hnil := h'.fifo node (h.fifo node hnil)
  phase := h'.phase.trans h.phase
  active node := by
    obtain heq | hnone := h'.active node
    . rw [heq]
      exact h.active node
    . exact .inr hnone
  localId := h'.localId.trans h.localId
  nmt := ⟨h'.nmt.1.trans h.nmt.1, h'.nmt.2.trans h.nmt.2⟩
  pinStage := h'.pinStage.trans h.pinStage

omit [DecidableEq ι] [DecidableEq κ] [Fintype ι] [Fintype κ] in
theorem ended (hdetached : v.detached = []) (h : Ended own v own' v') : Swept own v own' v' where
  rest := ⟨h.hand, h.detached.trans hdetached⟩
  fifo node hnil := by rw [h.fifo, hnil]
  phase := h.phase
  active := h.active
  localId := by
    obtain ⟨stop, hmisc⟩ := h.misc
    rw [hmisc]
  nmt := by
    obtain ⟨stop, hmisc⟩ := h.misc
    simp [hmisc]
  pinStage := h.pinStage

omit [DecidableEq ι] [DecidableEq κ] [Fintype ι] [Fintype κ] in
/-- A slot that is empty stays empty. -/
theorem active_none (h : Swept own v own' v') (hactive : own.sdoActive node = none)
    : own'.sdoActive node = none := by
  obtain heq | hnone := h.active node
  . rw [heq, hactive]
  . exact hnone

omit [DecidableEq κ] [Fintype ι] [Fintype κ] in
/-- A request was taken out of the FIFO of a node and completed. -/
theorem unlinked {fifo : List ι} {pending : Nat → Option ι} (hdetached : v.detached = [])
    (hmem : v.fifo node ≠ [])
    : Swept own v { own with sdoPending := pending } ((v.put r .away).setFifo node fifo) where
  rest := ⟨by simp [View.setFifo, View.put, Place.inHand], hdetached⟩
  fifo other hnil := by
    have hne : other ≠ node := fun heq => hmem (heq ▸ hnil)
    simpa [View.setFifo, View.put, hne] using hnil
  phase := rfl
  active _ := .inl rfl
  localId := rfl
  nmt := ⟨rfl, rfl⟩
  pinStage := rfl

end Swept

/-- Two requests of one node that the owner holds have different ids. -/
theorem Inv.ident_ne {sh : Shared ι κ} {r' : ι} (h : Inv cfg lim own sh v) (hlim : lim.uniqueIds)
    (hplace : (v.place r).node? = some node) (hplace' : (v.place r').node? = some node)
    (hne : r' ≠ r) : v.ident r' ≠ v.ident r := by
  have hheld {r : ι} (hplace : (v.place r).node? = some node)
      : v.place r ≠ .away ∧ ∀ sent, v.place r ≠ .published sent := by
    constructor
    . intro heq
      simp [heq, Place.node?] at hplace
    . intro sent heq
      simp [heq, Place.node?] at hplace
  intro hident
  obtain ⟨haway, hpublished⟩ := hheld hplace
  obtain ⟨haway', hpublished'⟩ := hheld hplace'
  refine hne (h.wake.uniqueIds hlim r' r ((h.requests r').live haway' hpublished')
    ((h.requests r).live haway hpublished) ?_ ?_)
  . rw [(h.requests r').node_eq node hplace', (h.requests r).node_eq node hplace]
  . rw [h.idents r' haway', h.idents r haway, hident]

/-- What the owner reads where the walk over the FIFO stands. -/
theorem readLink_spec {front rest : List ι} (hhand : v.hand = none)
    (hfifo : v.fifo node = front ++ rest)
    : Ensures cfg lim (readLink node front.getLast?) own v fun cursor own' v' =>
        own' = own ∧ v' = v ∧ cursor = rest.head? := by
  unfold readLink
  cases hlast : front.getLast? with
  | none =>
    obtain rfl := List.getLast?_eq_none_iff.mp hlast
    apply Ensures.bind
    apply Ensures.readOwn
    intro sh hinv
    apply Ensures.ret
    refine ⟨rfl, rfl, ?_⟩
    rw [hinv.lists.pending_eq, hfifo, List.nil_append]
  | some prev =>
    obtain ⟨front, rfl⟩ := List.getLast?_eq_some_iff.mp hlast
    have hfifo : v.fifo node = front ++ prev :: rest := by simpa using hfifo
    apply Ensures.bind
    apply Ensures.exec
    intro sh input request own' sh' hinv hrun _
    have hplace := hinv.lists.place_of_mem hhand (show prev ∈ v.fifo node by simp [hfifo])
    cases hrun
    refine ⟨v, .look (by simp [Op.looks, hplace]), .ret ⟨rfl, rfl, ?_⟩⟩
    have hthreaded := hinv.lists.fifo_threaded node
    rw [hfifo] at hthreaded
    exact hthreaded.next_eq

theorem writeLink_spec {front rest : List ι} (hrest : v.Rest) (hplace : v.place r = .fifo node)
    (hfifo : v.fifo node = front ++ r :: rest)
    : Ensures cfg lim (writeLink node front.getLast? rest.head?) own v fun _ own' v' =>
        v' = (v.put r (.ending .pend false false)).setFifo node (front ++ rest)
          ∧ ∃ pending, own' = { own with sdoPending := pending } := by
  unfold writeLink
  cases hlast : front.getLast? with
  | none =>
    obtain rfl := List.getLast?_eq_none_iff.mp hlast
    apply Ensures.step (fun _ _ => rfl) (fun _ _ _ => .popCanceled hrest hplace hfifo)
    intro _
    exact ⟨rfl, _, rfl⟩
  | some prev =>
    obtain ⟨front, rfl⟩ := List.getLast?_eq_some_iff.mp hlast
    have hfifo : v.fifo node = front ++ prev :: r :: rest := by simpa using hfifo
    apply Ensures.step (fun _ _ => rfl) (fun _ _ _ => .unlink hrest hplace hfifo)
    intro _
    exact ⟨by simp, _, rfl⟩

/-- A request that was taken out of its list is canceled. -/
theorem cancelUnlinked_spec {α : Type} {p : Owner ι κ α} {Q : α → Own ι κ → View ι → Prop}
    (hplace : v.place r = .ending .pend false false) (hhand : v.hand = some r)
    (hpin : own.pinStage = .none) (hp : Ensures cfg lim p own (v.put r .away) Q)
    : Ensures cfg lim
        (do
          exec (.setNext r none)
          exec (.setCancelRequested r)
          sdoComplete r .canceled .ok acNoSdo
          p)
        own v Q := by
  have hending : (v.place r).ending? = some .pend := by simp [hplace, Place.ending?]
  apply Ensures.bind
  apply Ensures.step (fun _ _ => rfl)
    (fun _ _ _ => .clearNext hhand (by simp [hplace, Place.loose]) (by simp [hplace]))
  intro _
  apply Ensures.bind
  apply Ensures.step (fun _ _ => rfl) (fun _ _ _ => .touchCancel (by simp [hplace]))
  intro _
  apply Ensures.call (sdoComplete_spec hending hpin (fun _ => ⟨rfl, rfl, rfl⟩))
  rintro _ own _ ⟨rfl, rfl⟩
  exact hp

/-- The FIFOs are as before, or without one request of the node that has the id. -/
def View.Dropped (node : Nat) (id : BitVec 32) (v v' : View ι) : Prop :=
  v'.fifo = v.fifo ∨ ∃ r ∈ v.fifo node, v.ident r = id
    ∧ v'.fifo = Function.update v.fifo node ((v.fifo node).erase r)

theorem sdoCancelPending_spec {id : BitVec 32} (hrest : v.Rest) (hpin : own.pinStage = .none)
    : Ensures cfg lim (sdoCancelPending node id) own v fun _ own' v' =>
        Swept own v own' v' ∧ (lim.uniqueIds → ∀ r ∈ v'.fifo node, v'.ident r ≠ id)
          ∧ v.Dropped node id v' := by
  unfold sdoCancelPending
  apply Ensures.loop fun (prev : Option ι) own' v' => own' = own ∧ v' = v
    ∧ ∃ front rest, v.fifo node = front ++ rest ∧ prev = front.getLast?
      ∧ ∀ r ∈ front, v.ident r ≠ id
  . exact ⟨rfl, rfl, [], v.fifo node, rfl, rfl, by simp⟩
  . rintro prev own v ⟨rfl, rfl, front, rest, hfifo, rfl, hfront⟩
    unfold sdoCancelPending.walk
    apply Ensures.call (readLink_spec hrest.1 hfifo)
    rintro cursor own v ⟨rfl, rfl, rfl⟩
    cases rest with
    | nil =>
      apply Ensures.ret
      refine ⟨.refl hrest, fun _ => ?_, .inl rfl⟩
      simpa [hfifo] using hfront
    | cons r rest =>
      apply Ensures.bind
      apply Ensures.exec
      intro sh input request own' sh' hinv hrun _
      have hplace := hinv.lists.place_of_mem hrest.1 (show r ∈ v.fifo node by simp [hfifo])
      cases hrun
      refine ⟨v, .look (by simp [Op.looks, hplace]), ?_⟩
      have hident : (sh.heap r).requestId = v.ident r := hinv.idents r (by simp [hplace])
      have hnext : (sh.heap r).next = rest.head? := by
        have hthreaded := hinv.lists.fifo_threaded node
        rw [hfifo] at hthreaded
        exact hthreaded.next_eq
      rw [hident, hnext]
      split
      next hid =>
        apply Ensures.call (writeLink_spec hrest hplace hfifo)
        rintro _ _ _ ⟨rfl, pending, rfl⟩
        refine cancelUnlinked_spec (View.put_place_self ..) rfl ?_ ?_
        . exact hpin
        rw [View.setFifo_put, View.put_put]
        apply Ensures.ret
        have hnodup : (front ++ r :: rest).Nodup := hfifo ▸ hinv.lists.fifo_nodup node
        simp only [List.nodup_middle, List.nodup_cons, List.mem_append] at hnodup
        have hdropped : (v.fifo node).erase r = front ++ rest := by
          rw [hfifo, List.erase_append_right _ fun hr => hnodup.1 (.inl hr), List.erase_cons_head]
        refine ⟨.unlinked hrest.2 (by simp [hfifo]), ?_, .inr ⟨r, by simp [hfifo], hid, ?_⟩⟩
        case refine_2 => rw [hdropped]; rfl
        intro hlim r' hmem
        have hr' : r' ∈ front ∨ r' ∈ rest := by simpa [View.setFifo] using hmem
        have hne : r' ≠ r := by
          intro heq
          exact hnodup.1 (heq ▸ hr')
        have hplace' : v.place r' = .fifo node := by
          apply hinv.lists.place_of_mem hrest.1
          rw [hfifo]
          simp [or_left_comm, hr']
        have hnode : (v.place r).node? = some node := by simp [hplace, Place.node?]
        have hnode' : (v.place r').node? = some node := by simp [hplace', Place.node?]
        rw [← hid]
        exact hinv.ident_ne hlim hnode hnode' hne
      next hid =>
        apply Ensures.ret
        refine ⟨rfl, rfl, front ++ [r], rest, by simp [hfifo], by simp, ?_⟩
        simpa [or_imp, forall_and] using ⟨hfront, hid⟩

/-- Only the valid node ids have a FIFO. -/
theorem Inv.fifo_eq_nil {sh : Shared ι κ} (h : Inv cfg lim own sh v)
    (hnode : node = 0 ∨ node > numNodes) : v.fifo node = [] := by
  apply List.eq_nil_iff_forall_not_mem.mpr
  intro r hr
  have hplace : (v.place r).node? = some node ∧ v.place r ≠ .away
      ∧ ∀ sent, v.place r ≠ .published sent := by
    obtain hplace | hplace := (h.lists.mem_fifo node r).mp hr <;> simp [hplace, Place.node?]
  have heq := (h.requests r).node_eq node hplace.1
  have hfilled := (h.requests r).filled_of_held hplace.2.1 hplace.2.2
  omega

/-- The active transfer is aborted, and completed by `fin` if its confirmation did not do so. -/
theorem abortActive_spec {fin : Own ι κ → Owner ι κ Unit} (hrest : v.Rest)
    (hpin : own.pinStage = .none) (hplace : v.place r = .active node)
    (hactive : own.sdoActive node = some r)
    (hfin : ∀ (own₁ own₂ : Own ι κ) (v₁ : View ι), Freed node own₁ own₂ → own₁.pinStage = .none →
      Ensures cfg lim (fin own₁) own₂ (v₁.put r (.ending .act false false))
        fun _ own' v' => v' = v₁.put r .away ∧ Freed node own₁ own')
    : Ensures cfg lim
        (do
          exec (.setCancelRequested r)
          sdoAbortRunning node
          let own : Own ι κ ← exec .own
          if own.sdoActive node = some r then do
            exec (.setActive node none)
            fin own
          else
            pure ())
        own v fun _ own' v' => Ended own v own' v' ∧ own'.sdoActive node = none := by
  apply Ensures.bind
  apply Ensures.step (fun _ _ => rfl) (fun _ _ _ => .touchCancel (by simp [hplace]))
  intro _
  apply Ensures.call (sdoAbortRunning_spec hrest.1 hpin hplace)
  rintro _ own₁ v₁ ⟨hended, hbusy⟩
  apply Ensures.bind
  apply Ensures.readOwn
  intro sh hinv
  split
  next hnow =>
    have hplace := (hinv.lists.active_iff node r).mp hnow
    apply Ensures.bind
    apply Ensures.step (fun _ _ => rfl) (fun _ _ _ => .release hended.hand hplace hbusy)
    intro _
    refine Ensures.mono (hfin own₁ _ v₁ ?_ (hended.pinStage.trans hpin)) ?_
    . exact ⟨rfl, rfl, rfl, .refl .., rfl⟩
    rintro _ own₂ _ ⟨rfl, hfreed⟩
    exact ⟨hended.trans (.freed hplace hfreed), by simp [hfreed.active]⟩
  next hnow =>
    apply Ensures.ret
    refine ⟨hended, (hended.active node).resolve_left ?_⟩
    rw [hactive]
    exact hnow

theorem sdoCancelDispatch_spec {id : BitVec 32} (hrest : v.Rest) (hpin : own.pinStage = .none)
    (hclear : node = 0 ∨ node > numNodes → v.fifo node = [])
    : Ensures cfg lim (sdoCancelDispatch node id) own v fun _ own' v' =>
        Swept own v own' v' ∧ (lim.uniqueIds → ∀ r ∈ v'.fifo node, v'.ident r ≠ id)
          ∧ v.Dropped node id v' := by
  unfold sdoCancelDispatch
  split
  next hnode => exact .ret ⟨.refl hrest, by simp [hclear hnode], .inl rfl⟩
  next hnode =>
    apply Ensures.bind
    apply Ensures.readOwn
    intro sh hinv
    cases hactive : own.sdoActive node with
    | none =>
      apply Ensures.call (sdoCancelPending_spec hrest hpin)
      intro _ own' v' hres
      exact .ret hres
    | some r =>
      have hplace := (hinv.lists.active_iff node r).mp hactive
      apply Ensures.bind
      apply Ensures.read (by simp [hplace])
      intro sh hinv
      rw [hinv.idents r (by simp [hplace])]
      split
      next hid =>
        apply Ensures.call (sdoCancelPending_spec hrest hpin)
        intro _ own' v' hres
        exact .ret hres
      next hid =>
        apply (abortActive_spec hrest hpin hplace hactive
          fun _ _ _ => stopAndComplete_spec).mono
        rintro _ own' v' ⟨hended, _⟩
        refine ⟨.ended hrest.2 hended, ?_, .inl hended.fifo⟩
        intro hlim r' hr'
        rw [hended.fifo] at hr'
        have hplace' := hinv.lists.place_of_mem hrest.1 hr'
        have hnode : (v.place r).node? = some node := by simp [hplace, Place.node?]
        have hnode' : (v.place r').node? = some node := by simp [hplace', Place.node?]
        rw [hended.ident, ← not_not.mp hid]
        refine hinv.ident_ne hlim hnode hnode' ?_
        rintro rfl
        simp [hplace] at hplace'

/-- A request whose command was drained is canceled. -/
theorem sdoCancelQueued_spec (hplace : v.place r = .fresh node) (hpin : own.pinStage = .none)
    : Ensures cfg lim (sdoCancelQueued r) own v fun _ own' v' =>
        own' = own ∧ v' = v.put r .away := by
  unfold sdoCancelQueued
  apply Ensures.bind
  apply Ensures.exec
  intro sh input state own' sh' hinv hrun _
  cases hrun
  -- the view of the owner once it knows the state that the request is in
  let known (state : ReqState) : View ι :=
    if state = .queued then v else v.put r (.ending .pend false false)
  have hload : Ghost cfg lim (.loadState r) own sh (sh.heap r).state v (known (sh.heap r).state) := by
    by_cases hqueued : (sh.heap r).state = .queued
    . simp only [known, hqueued, ↓reduceIte]
      exact .look (by simp [Op.looks, hplace])
    . simp only [known, hqueued, ↓reduceIte]
      rw [hinv.fresh_state hplace hqueued]
      exact .loadDropped hplace
  have hstate : (sh.heap r).state = .queued ∨ (sh.heap r).state = .cancelPending :=
    or_iff_not_imp_left.mpr (hinv.fresh_state hplace)
  refine ⟨_, hload, ?_⟩
  apply Ensures.bind
  refine Ensures.loop (fun state own' v' => own' = own ∧ v' = known state
    ∧ (state = .queued ∨ state = .cancelPending)) ⟨rfl, rfl, hstate⟩ ?_
  rintro state own _ ⟨rfl, rfl, hstate⟩
  have hfinish (kind : Ending) (ac : BitVec 32) (hresult : kind.Accepts .canceled .ok ac)
      : Ensures cfg lim
          (do
            exec (.setCancelRequested r)
            sdoComplete r .canceled .ok ac)
          own (v.put r (.ending kind false false)) fun _ own' v' =>
            own' = own ∧ v' = v.put r .away := by
    apply Ensures.bind
    apply Ensures.step (fun _ _ => rfl) (fun _ _ _ => .touchCancel (by simp))
    intro _
    have hending : ((v.put r (.ending kind false false)).place r).ending? = some kind := by
      simp [Place.ending?]
    apply (sdoComplete_spec hending hpin hresult).mono
    rintro _ _ _ ⟨rfl, rfl⟩
    exact ⟨rfl, by simp⟩
  unfold sdoCancelQueued.attempt
  obtain rfl | rfl := hstate
  . rw [if_neg (by simp), if_neg (by simp)]
    apply Ensures.bind
    apply Ensures.cas rfl
    . intro sh _ _
      refine ⟨_, .claimTeardown hplace, ?_⟩
      exact .ret (hfinish .teardown 0 fun heq => by cases heq)
    . intro sh hinv hne
      refine ⟨_, .claimFailed hplace rfl, ?_⟩
      rw [hinv.fresh_state hplace hne]
      exact .ret ⟨rfl, rfl, .inr rfl⟩
  . rw [if_pos rfl]
    exact .ret (hfinish .pend acNoSdo fun _ => ⟨rfl, rfl, rfl⟩)

/-- The requests of a detached FIFO are canceled one after the other. -/
theorem sdoCancelDetached_spec {head : Option ι} (hhand : v.hand = none)
    (hhead : head = v.detached.head?) (hpin : own.pinStage = .none)
    : Ensures cfg lim (sdoCancelDetached head) own v fun _ own' v' =>
        own' = own ∧ v'.Rest ∧ v'.fifo = v.fifo ∧ v'.phase = v.phase := by
  unfold sdoCancelDetached
  apply Ensures.loop fun (pending : Option ι) own' v' => own' = own ∧ v'.hand = none
    ∧ pending = v'.detached.head? ∧ v'.fifo = v.fifo ∧ v'.phase = v.phase
  . exact ⟨rfl, hhand, hhead, rfl, rfl⟩
  . rintro pending own v' ⟨rfl, hhand, rfl, hfifo, hphase⟩
    unfold sdoCancelDetached.walk
    cases hdetached : v'.detached with
    | nil => exact .ret ⟨rfl, ⟨hhand, hdetached⟩, hfifo, hphase⟩
    | cons r rest =>
      dsimp only [List.head?_cons]
      apply Ensures.bind
      apply Ensures.exec
      intro sh input request own' sh' hinv hrun _
      have hplace := (hinv.lists.mem_detached r).mp (by simp [hdetached])
      cases hrun
      refine ⟨v', .look (by simp [Op.looks, hplace]), ?_⟩
      have hnext : (sh.heap r).next = rest.head? := by
        have hthreaded := hinv.lists.detached_threaded
        rw [hdetached] at hthreaded
        exact hthreaded.1
      rw [hnext]
      apply Ensures.bind
      apply Ensures.step (fun _ _ => rfl) (fun _ _ _ => .takeDetached hhand hdetached)
      intro _
      apply Ensures.bind
      apply Ensures.step (fun _ _ => rfl) (fun _ _ _ => .touchCancel (by simp [View.put]))
      intro _
      refine Ensures.call (sdoComplete_spec (?_ : Place.ending? _ = some .pend) hpin
        (fun _ => ⟨rfl, rfl, rfl⟩)) ?_
      . simp [View.put, Place.ending?]
      rintro _ own _ ⟨rfl, rfl⟩
      exact .ret ⟨rfl, by simp [View.put, Place.inHand], rfl, hfifo, hphase⟩

theorem sdoCancelActive_spec (hrest : v.Rest) (hpin : own.pinStage = .none)
    : Ensures cfg lim (sdoCancelActive node) own v fun _ own' v' =>
        Ended own v own' v' ∧ own'.sdoActive node = none := by
  unfold sdoCancelActive
  apply Ensures.bind
  apply Ensures.readOwn
  intro sh hinv
  cases hactive : own.sdoActive node with
  | none => exact .ret ⟨.refl hrest.1, hactive⟩
  | some r =>
    have hplace := (hinv.lists.active_iff node r).mp hactive
    exact abortActive_spec hrest hpin hplace hactive fun _ _ _ => sdoComplete_freed

omit [DecidableEq ι] [DecidableEq κ] [Fintype ι] [Fintype κ] in
/-- The stop of a Client-SDO is noted or taken back. -/
theorem Swept.setStop (hrest : v.Rest) (stop : Nat → Bool)
    : Swept own v { own with misc := { own.misc with sdoStopPending := stop } } v :=
  ⟨hrest, fun _ => id, rfl, fun _ => .inl rfl, rfl, ⟨rfl, rfl⟩, rfl⟩

theorem sdoCancelOne_spec (hrest : v.Rest) (hpin : own.pinStage = .none)
    : Ensures cfg lim (sdoCancelOne node) own v fun _ own' v' =>
        Swept own v own' v' ∧ v'.fifo node = [] ∧ own'.sdoActive node = none := by
  unfold sdoCancelOne
  apply Ensures.call (sdoCancelActive_spec hrest hpin)
  rintro _ own₁ v₁ ⟨hended, hactive⟩
  have hrest₁ : v₁.Rest := ⟨hended.hand, hended.detached.trans hrest.2⟩
  have hpin₁ := hended.pinStage.trans hpin
  apply Ensures.bind
  apply Ensures.readOwn
  intro sh hinv
  apply Ensures.bind
  apply Ensures.step (fun _ _ => rfl) (fun _ _ _ => .detach hrest₁)
  intro _
  refine Ensures.call (sdoCancelDetached_spec ?_ ?_ ?_) ?_
  . exact hrest₁.1
  . exact hinv.lists.pending_eq node
  . exact hpin₁
  rintro _ own₂ v₂ ⟨rfl, hrest₂, hfifo₂, hphase₂⟩
  have hnil : v₂.fifo node = [] := by simp [hfifo₂, View.detach, View.setFifo]
  have hswept : Swept own v
      { own₁ with sdoPending := Function.update own₁.sdoPending node none } v₂ := by
    refine (Swept.ended hrest.2 hended).trans ⟨hrest₂, ?_, hphase₂, fun _ => .inl rfl, rfl, ⟨rfl, rfl⟩, rfl⟩
    intro other hother
    by_cases heq : other = node
    . exact heq ▸ hnil
    . simpa [hfifo₂, View.detach, View.setFifo, heq] using hother
  have hdone {own' : Own ι κ} {v' : View ι} (hswept : Swept own v own' v')
      (hnil : v'.fifo node = []) (hactive : own'.sdoActive node = none)
      : Ensures cfg lim (setStopPending node false) own' v' fun _ own' v' =>
          Swept own v own' v' ∧ v'.fifo node = [] ∧ own'.sdoActive node = none := by
    apply (setStopPending_spec false).mono
    rintro _ _ _ ⟨rfl, rfl⟩
    exact ⟨hswept.trans (.setStop hswept.rest _), hnil, hactive⟩
  dsimp only
  split
  next =>
    refine Ensures.call (csdoStop_spec hrest₂.1 ?_) ?_
    . exact hpin₁
    rintro _ own₃ v₃ ⟨hended₃, _⟩
    have hswept₃ := Swept.ended hrest₂.2 hended₃
    exact hdone (hswept.trans hswept₃) (hswept₃.fifo node hnil) (hswept₃.active_none hactive)
  next => exact hdone hswept hnil hactive

theorem sdoCancelNode_spec (hrest : v.Rest) (hpin : own.pinStage = .none)
    : Ensures cfg lim (sdoCancelNode node) own v fun _ own' v' => Swept own v own' v'
        ∧ (node ≤ numNodes → ∀ n ∈ targets node, v'.fifo n = [] ∧ own'.sdoActive n = none) := by
  unfold sdoCancelNode
  split
  next hnode => exact .ret ⟨.refl hrest, by omega⟩
  next =>
    refine Ensures.forEach (fun rest own' v' => Swept own v own' v'
      ∧ ∀ n ∈ targets node, n ∈ rest ∨ v'.fifo n = [] ∧ own'.sdoActive n = none)
      ⟨.refl hrest, fun _ => .inl⟩ ?_ ?_
    . rintro own' v' ⟨hswept, hdone⟩
      exact ⟨hswept, fun _ n hn => (hdone n hn).resolve_left (by simp)⟩
    . rintro n rest own' v' ⟨hswept, hdone⟩
      apply (sdoCancelOne_spec hswept.rest (hswept.pinStage.trans hpin)).mono
      rintro _ own'' v'' ⟨hswept', hnil, hactive⟩
      refine ⟨hswept.trans hswept', ?_⟩
      intro m hm
      by_cases heq : m = n
      . exact .inr (heq ▸ ⟨hnil, hactive⟩)
      . obtain hm | hm := hdone m hm
        . exact .inl ((List.mem_cons.mp hm).resolve_left heq)
        . exact .inr ⟨hswept'.fifo m hm.1, hswept'.active_none hm.2⟩

omit [DecidableEq ι] [DecidableEq κ] [Fintype ι] [Fintype κ] in
/-- A node that the owner did not work on stays quiet. -/
theorem Worked.quiet {own' : Own ι κ} {v' : View ι} {other : Nat} (h : Worked node own v own' v')
    (hne : other ≠ node) (hquiet : v.Quiet own other) : v'.Quiet own' other := by
  obtain ⟨stop, hmisc, hstop⟩ := h.misc
  unfold View.Quiet at *
  rw [h.active other hne, h.fifo other hne, h.settled other hne, hmisc]
  dsimp only
  rw [hstop other hne]
  exact hquiet

/-- The head of a FIFO and what it points to. -/
theorem Inv.head {sh : Shared ι κ} (h : Inv cfg lim own sh v) (hhand : v.hand = none)
    (hpending : own.sdoPending node = some r)
    : ∃ rest, v.fifo node = r :: rest ∧ v.place r = .fifo node := by
  have hhead := (h.lists.pending_eq node).symm.trans hpending
  obtain ⟨rest, hfifo⟩ := List.head?_eq_some_iff.mp hhead
  exact ⟨rest, hfifo, h.lists.place_of_mem hhand (by simp [hfifo])⟩

theorem Inv.head_next {sh : Shared ι κ} {rest : List ι} (h : Inv cfg lim own sh v)
    (hfifo : v.fifo node = r :: rest) : (sh.heap r).next = rest.head? := by
  have hthreaded := h.lists.fifo_threaded node
  rw [hfifo] at hthreaded
  exact hthreaded.1

/-- The head of a FIFO that was canceled is taken out of it. -/
theorem cancelHead_spec {rest : List ι} (hrest : v.Rest) (hpin : own.pinStage = .none)
    (hplace : v.place r = .fifo node) (hfifo : v.fifo node = r :: rest)
    (hsettled : v.settled node = .command)
    : Ensures cfg lim
        (do
          let request : Request ι ← exec (.read r)
          exec (.setPending node request.next)
          exec (.setNext r none)
          exec (.setCancelRequested r)
          sdoComplete r .canceled .ok acNoSdo
          pure false)
        own v fun _ own' v' => Worked node own v own' v' ∧ v'.settled node = .command := by
  apply Ensures.bind
  apply Ensures.read (by simp [hplace])
  intro sh hinv
  rw [hinv.head_next hfifo]
  apply Ensures.bind
  apply Ensures.step (fun _ _ => rfl) (fun _ _ _ => .popCanceled hrest hplace hfifo)
  intro _
  refine cancelUnlinked_spec (View.put_place_self ..) rfl ?_ ?_
  . exact hpin
  rw [View.setFifo_put, View.put_put]
  apply Ensures.ret
  refine ⟨(Worked.put hrest.2 rfl).trans
    (.setPending _ (.setFifo _ ⟨by simp [View.put, Place.inHand], hrest.2⟩)), ?_⟩
  simp [View.setFifo, View.put, hsettled]

/-- The head of a FIFO that was claimed becomes the active transfer. -/
theorem startHead_spec {rest : List ι} (hdetached : v.detached = []) (hpin : own.pinStage = .none)
    (hplace : v.place r = .promoted node) (hfifo : v.fifo node = r :: rest)
    (hready : Ready own node)
    : Ensures cfg lim
        (do
          let request : Request ι ← exec (.read r)
          exec (.setPending node request.next)
          exec (.setNext r none)
          sdoStartActive r
          let own : Own ι κ ← exec .own
          pure (own.sdoActive node).isNone)
        own v fun again own' v' => Worked node own v own' v'
          ∧ again = (own'.sdoActive node).isNone := by
  apply Ensures.bind
  apply Ensures.read (by simp [hplace])
  intro sh hinv
  rw [hinv.head_next hfifo]
  apply Ensures.bind
  apply Ensures.step (fun _ _ => rfl) (fun _ _ _ => .popPromoted hplace hfifo)
  intro _
  have hclaimed : ((v.put r (.claimed node)).setFifo node rest).place r = .claimed node :=
    View.put_place_self ..
  apply Ensures.bind
  apply Ensures.step (fun _ _ => rfl)
    (fun _ _ _ => .clearNext rfl (by simp [hclaimed, Place.loose]) (by simp [hclaimed]))
  intro _
  refine Ensures.call (sdoStartActive_spec rfl hclaimed ?_ ?_) ?_
  . exact hpin
  . exact ⟨hready.active, hready.excludes, hready.suspended, hready.masterNmt, hready.canNet⟩
  intro _ own' v' hstarted
  apply Ensures.bind
  apply Ensures.readOwn
  intro _ _
  apply Ensures.ret
  refine ⟨Worked.popped (Worked.started ?_ hstarted), rfl⟩
  exact hdetached

theorem sdoStartPending_spec (hrest : v.Rest) (hpin : own.pinStage = .none)
    (hold : v.phase.old = 0) (htarget : v.phase.target = none)
    : Ensures cfg lim (sdoStartPending node) own v fun again own' v' =>
        Worked node own v own' v' ∧ (again = false → v'.Quiet own' node) := by
  unfold sdoStartPending
  apply Ensures.bind
  apply Ensures.readOwn
  intro sh hinv
  split
  next hno =>
    apply Ensures.ret
    refine ⟨.refl hrest, fun _ => ?_⟩
    obtain hno | hno := hno
    . exact .inl (by simpa using hno)
    . exact .inr (.inl hno)
  next hgo =>
    simp only [Bool.not_eq_true', Option.isSome_iff_ne_none, not_or, not_not,
      Bool.not_eq_false] at hgo
    obtain ⟨havailable, hactive⟩ := hgo
    cases hpending : own.sdoPending node with
    | none =>
      apply Ensures.ret
      refine ⟨.refl hrest, fun _ => .inr (.inr (.inr (.inl ?_)))⟩
      simpa [hpending] using (hinv.lists.pending_eq node).symm
    | some r =>
      obtain ⟨rest, hfifo, hplace⟩ := hinv.head hrest.1 hpending
      apply Ensures.bind
      apply Ensures.exec
      intro sh input state own' sh' hinv hrun _
      cases hrun
      by_cases hstate : (sh.heap r).state = .cancelPending
      . rw [hstate, if_pos rfl]
        refine ⟨_, .loadSettled hplace hold htarget, ?_⟩
        refine Ensures.mono (cancelHead_spec hrest hpin hplace hfifo ?_) ?_
        . simp [View.setSettled]
        . rintro again own' v' ⟨hworked, hsettled⟩
          refine ⟨.trans (.setSettled _ hrest) hworked, ?_⟩
          intro _
          exact .inr (.inr (.inr (.inr (by simp [hsettled]))))
      . rw [if_neg hstate]
        refine ⟨v, .look (by simp [Op.looks, hplace]), ?_⟩
        apply Ensures.bind
        apply Ensures.cas rfl
        . intro sh _ _
          refine ⟨_, .promote hrest hplace hfifo hactive, ?_⟩
          have hfifo : ((v.put r (.promoted node)).setFifo node (r :: rest)).fifo node = r :: rest := by
            simp [View.setFifo]
          refine Ensures.mono (startHead_spec ?_ hpin (View.put_place_self ..) hfifo ?_) ?_
          . exact hrest.2
          . exact .of_available havailable hactive
          . rintro again own' v' ⟨hworked, rfl⟩
            refine ⟨hworked.popped, ?_⟩
            intro hsome
            exact .inr (.inl (by simpa using hsome))
        . intro sh _ _
          refine ⟨_, .promoteFailed hplace hfifo hold, ?_⟩
          apply Ensures.ret
          refine ⟨.setSettled _ hrest, ?_⟩
          intro _
          exact .inr (.inr (.inr (.inr (by simp [View.setSettled]))))

/-- A Client-SDO that is idle is stopped, and no transfer ends. -/
theorem stopClient_spec (hrest : v.Rest) (hpin : own.pinStage = .none)
    : Ensures cfg lim (sdoReapOne.stopClient node) own v fun _ own' v' =>
        Worked node own v own' v' := by
  have hunstop (csdo : Chan → Option (Csdo ι))
      : Ensures cfg lim (setStopPending node false) { own with csdo := csdo } v fun _ own' v' =>
          Worked node own v own' v' := by
    apply (setStopPending_spec false).mono
    rintro _ _ _ ⟨rfl, rfl⟩
    exact ⟨hrest, fun _ _ => rfl, fun _ _ => rfl, rfl, fun _ _ => rfl, .update .., rfl⟩
  have hcheck (csdo : Chan → Option (Csdo ι))
      : Ensures cfg lim
          (do
            let own : Own ι κ ← exec .own
            if own.csdo (.predefined node) = some .stopped then
              setStopPending node false
            else
              pure ())
          { own with csdo := csdo } v fun _ own' v' => Worked node own v own' v' := by
    apply Ensures.bind
    apply Ensures.readOwn
    intro _ _
    split
    next => exact hunstop csdo
    next => exact .ret ⟨hrest, fun _ _ => rfl, fun _ _ => rfl, rfl, fun _ _ => rfl, .refl .., rfl⟩
  unfold sdoReapOne.stopClient
  apply Ensures.bind
  apply Ensures.readOwn
  intro _ _
  cases hcsdo : own.csdo (.predefined node) with
  | none => exact hunstop own.csdo
  | some csdo =>
    dsimp only
    split
    next hidle =>
      have hnot : ¬own.busyOn (.predefined node) := by
        rintro ⟨r, hnow⟩
        simp [hcsdo, hidle] at hnow
      apply Ensures.call (csdoStop_spec hrest.1 hpin)
      rintro _ own' v' ⟨_, _, hsame⟩
      obtain ⟨rfl, csdo, rfl⟩ := hsame hnot
      exact hcheck csdo
    next => exact hcheck own.csdo

theorem sdoReapOne_spec (hrest : v.Rest) (hpin : own.pinStage = .none)
    (hold : v.phase.old = 0) (htarget : v.phase.target = none)
    : Ensures cfg lim (sdoReapOne node) own v fun _ own' v' =>
        Worked node own v own' v' ∧ v'.Quiet own' node := by
  unfold sdoReapOne
  apply Ensures.loop fun _ own' v' => Worked node own v own' v'
  . exact .refl hrest
  . intro _ own₁ v₁ hworked
    have hpin₁ := hworked.pinStage.trans hpin
    have hstart (own₂ : Own ι κ) (v₂ : View ι) (hworked : Worked node own v own₂ v₂)
        : Ensures cfg lim
            (do
              let own : Own ι κ ← exec .own
              if own.misc.sdoStopPending node then
                pure (.inr ())
              else do
                let again : Bool ← sdoStartPending node
                if again then pure (.inl ()) else pure (.inr ()) : Owner ι κ (Unit ⊕ Unit))
            own₂ v₂ fun res own' v' =>
              Worked node own v own' v' ∧ (res = .inr () → v'.Quiet own' node) := by
      apply Ensures.bind
      apply Ensures.readOwn
      intro _ _
      split
      next hstop => exact .ret ⟨hworked, fun _ => .inr (.inr (.inl hstop))⟩
      next =>
        apply Ensures.call (sdoStartPending_spec hworked.rest (hworked.pinStage.trans hpin)
          (hworked.phase ▸ hold) (hworked.phase ▸ htarget))
        rintro again own₃ v₃ ⟨hworked', hquiet⟩
        cases again with
        | true => exact .ret ⟨hworked.trans hworked', by simp⟩
        | false => exact .ret ⟨hworked.trans hworked', fun _ => hquiet rfl⟩
    apply Ensures.bind
    apply Ensures.readOwn
    intro _ _
    split
    next hactive => exact .ret ⟨hworked, .inr (.inl hactive)⟩
    next =>
      dsimp only
      split
      next =>
        apply Ensures.call (stopClient_spec hworked.rest hpin₁)
        intro _ own₂ v₂ hworked'
        apply (hstart own₂ v₂ (hworked.trans hworked')).mono
        rintro (_ | _) own' v' ⟨hworked, hquiet⟩
        . exact hworked
        . exact ⟨hworked, hquiet rfl⟩
      next =>
        apply (hstart own₁ v₁ hworked).mono
        rintro (_ | _) own' v' ⟨hworked, hquiet⟩
        . exact hworked
        . exact ⟨hworked, hquiet rfl⟩

/-- After the reap nothing can be done for any node until the next event. -/
theorem sdoReap_spec (hrest : v.Rest) (hpin : own.pinStage = .none) (hold : v.phase.old = 0)
    (htarget : v.phase.target = none)
    : Ensures cfg lim sdoReap own v fun _ own' v' => v'.Rest ∧ v'.phase = v.phase
        ∧ own'.pinStage = .none ∧ ∀ node, node ≠ 0 → node ≤ numNodes → v'.Quiet own' node := by
  unfold sdoReap
  refine Ensures.forEach (fun todo own' v' => v'.Rest ∧ v'.phase = v.phase
    ∧ own'.pinStage = .none ∧ ∀ node ∈ List.range' 1 numNodes, node ∈ todo ∨ v'.Quiet own' node)
    ⟨hrest, rfl, hpin, fun _ => .inl⟩ ?_ ?_
  . rintro own' v' ⟨hrest, hphase, hpin, hquiet⟩
    refine ⟨hrest, hphase, hpin, ?_⟩
    intro node hnode hnumNodes
    refine (hquiet node ?_).resolve_left (by simp)
    rw [List.mem_range'_1]
    omega
  . rintro n todo own' v' ⟨hrest, hphase, hpin, hquiet⟩
    apply (sdoReapOne_spec hrest hpin (hphase ▸ hold) (hphase ▸ htarget)).mono
    rintro _ own'' v'' ⟨hworked, hdone⟩
    refine ⟨hworked.rest, hworked.phase.trans hphase, hworked.pinStage.trans hpin, ?_⟩
    intro m hm
    by_cases heq : m = n
    . exact .inr (heq ▸ hdone)
    . obtain hm | hm := hquiet m hm
      . exact .inl ((List.mem_cons.mp hm).resolve_left heq)
      . exact .inr (hworked.quiet heq hm)

/-- No node has a transfer or a request that waits for one. -/
structure Idle (own : Own ι κ) (v : View ι) : Prop where
  rest : v.Rest
  fifo : ∀ node ∈ targets 0, v.fifo node = []
  active : ∀ node ∈ targets 0, own.sdoActive node = none

omit [DecidableEq ι] [DecidableEq κ] [Fintype ι] [Fintype κ] in
theorem Swept.idle {own' : Own ι κ} {v' : View ι} (h : Swept own v own' v') (hidle : Idle own v)
    : Idle own' v' :=
  ⟨h.rest, fun node hnode => h.fifo node (hidle.fifo node hnode),
    fun node hnode => h.active_none (hidle.active node hnode)⟩

theorem mem_targets_zero (hnode : node ≠ 0) (hnumNodes : node ≤ numNodes) : node ∈ targets 0 := by
  rw [targets, if_pos rfl, List.mem_range'_1]
  omega

/-- Then the owner holds no request. -/
theorem Inv.away_of_idle {sh : Shared ι κ} (h : Inv cfg lim own sh v) (hidle : Idle own v) (r : ι)
    : v.place r = .away := by
  have hhand : (v.place r).inHand = false := by
    by_contra hhand
    have hr := h.lists.hand_of_inHand (by simpa using hhand)
    simp [hidle.rest.1] at hr
  have hvalid (node : Nat) (hnode : (v.place r).node? = some node) (hheld : v.place r ≠ .away)
      (hpublished : ∀ sent, v.place r ≠ .published sent) : node ∈ targets 0 := by
    have heq := (h.requests r).node_eq node hnode
    obtain ⟨_, hfilled⟩ := (h.requests r).filled_of_held hheld hpublished
    exact mem_targets_zero (heq ▸ hfilled.1) (heq ▸ hfilled.2)
  cases hplace : v.place r with
  | away => rfl
  | fifo node =>
    have hmem := (h.lists.mem_fifo node r).mpr (.inl hplace)
    rw [hidle.fifo node (by apply hvalid <;> simp [hplace, Place.node?])] at hmem
    cases hmem
  | active node =>
    have hactive := (h.lists.active_iff node r).mpr hplace
    rw [hidle.active node (by apply hvalid <;> simp [hplace, Place.node?])] at hactive
    cases hactive
  | detached =>
    have hmem := (h.lists.mem_detached r).mpr hplace
    rw [hidle.rest.2] at hmem
    cases hmem
  | _ => simp [hplace, Place.inHand] at hhand

theorem sdoCancelWaitIdle_spec (hidle : Idle own v) (hdrained : v.phase.drained = true)
    : Ensures cfg lim sdoCancelWaitIdle own v fun _ own' v' =>
        own' = own ∧ v' = { v with phase := { v.phase with pinsIdle := true } } := by
  unfold sdoCancelWaitIdle
  apply Ensures.loop fun _ own' v' => own' = own ∧ v' = v
  . exact ⟨rfl, rfl⟩
  . rintro _ own v ⟨rfl, rfl⟩
    apply Ensures.bind
    apply Ensures.exec
    intro sh input refs own' sh' hinv hrun _
    cases hrun
    by_cases hrefs : sh.sdoCancelRefs = 0
    . rw [hrefs, if_neg (by simp)]
      exact ⟨_, .cancelsIdle hdrained (hinv.away_of_idle hidle), .ret ⟨rfl, rfl⟩⟩
    . rw [if_pos hrefs]
      exact ⟨v, .look trivial, .ret ⟨rfl, rfl⟩⟩

theorem sdoFiniOne_spec (hnode : node ∈ targets 0) (hidle : Idle own v) (hpin : own.pinStage = .none)
    : Ensures cfg lim (sdoFiniOne node) own v fun _ own' v' => Swept own v own' v' := by
  unfold sdoFiniOne
  apply Ensures.call (csdoDestroy_spec hidle.rest.1 hpin)
  intro _ own₁ v₁ hended
  have hswept := Swept.ended hidle.rest.2 hended
  have hidle₁ := hswept.idle hidle
  apply Ensures.bind
  apply Ensures.step (fun _ _ => rfl) (fun _ _ _ => .clearActive (hidle₁.active node hnode))
  intro _
  apply Ensures.bind
  apply Ensures.step (fun _ _ => rfl) (fun _ _ _ => .detach hidle₁.rest)
  intro _
  apply Ensures.step (fun _ _ => rfl) (fun _ _ _ => .setMisc
    ⟨rfl, .inl ⟨rfl, rfl⟩, fun _ _ => .inl, fun _ => id, [.fini node], rfl, rfl⟩)
  intro _
  refine hswept.trans ⟨⟨hidle₁.rest.1, hidle₁.fifo node hnode⟩, ?_, rfl, ?_, rfl, ⟨rfl, rfl⟩, rfl⟩
  . intro other hnil
    by_cases heq : other = node
    . simp [View.detach, View.setFifo, heq]
    . simpa [View.detach, View.setFifo, heq] using hnil
  . intro other
    by_cases heq : other = node
    . exact .inr (by simp [heq])
    . exact .inl (by simp [heq])

theorem sdoFini_spec (hrest : v.Rest) (hpin : own.pinStage = .none) (hidle : v.phase.idle = true)
    (hdrained : v.phase.drained = true)
    : Ensures cfg lim sdoFini own v fun _ own' v' => v'.Rest
        ∧ v'.phase = { v.phase with pinsIdle := true } ∧ own'.pinStage = .none := by
  unfold sdoFini
  apply Ensures.call (sdoCancelNode_spec hrest hpin)
  rintro _ own₁ v₁ ⟨hswept, hempty⟩
  have hempty := hempty (Nat.zero_le _)
  have hidle₁ : Idle own₁ v₁ :=
    ⟨hswept.rest, fun n hn => (hempty n hn).1, fun n hn => (hempty n hn).2⟩
  apply Ensures.call (sdoCancelWaitIdle_spec hidle₁ (hswept.phase ▸ hdrained))
  rintro _ own₁ _ ⟨rfl, rfl⟩
  apply Ensures.bind
  apply Ensures.step (fun _ _ => rfl)
    (fun _ _ _ => .mark (fun _ => hswept.phase ▸ hidle) (fun _ => hswept.phase ▸ hdrained) (fun _ => rfl))
  intro _
  refine Ensures.forEach (fun todo own' v' => (∀ n ∈ todo, n ∈ targets 0) ∧ Idle own' v'
    ∧ v'.phase = { v.phase with pinsIdle := true } ∧ own'.pinStage = .none) ?_ ?_ ?_
  . exact ⟨fun _ hn => hn, ⟨hidle₁.rest, hidle₁.fifo, hidle₁.active⟩, by rw [hswept.phase],
      hswept.pinStage.trans hpin⟩
  . rintro own' v' ⟨_, hidle, hphase, hpin⟩
    exact ⟨hidle.rest, hphase, hpin⟩
  . rintro n todo own' v' ⟨htodo, hidle, hphase, hpin⟩
    apply (sdoFiniOne_spec (htodo n (by simp)) hidle hpin).mono
    intro _ own'' v'' hswept
    exact ⟨fun m hm => htodo m (by simp [hm]), hswept.idle hidle, hswept.phase.trans hphase,
      hswept.pinStage.trans hpin⟩

end LelyRtt
