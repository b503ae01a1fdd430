import LelyRtt.Protocol.Trace

/-!
This module contains the results about the scheduling of requests: one transfer for each node, a
FIFO of bounded length behind it, no request that is lost and none that overtakes another.
-/

namespace LelyRtt

open Conc

variable {ι κ : Type} [DecidableEq ι] [DecidableEq κ] [Fintype ι] [Fintype κ]
  {cfg : BuildConfig} {lim : Limits} {own : Own ι κ} {sh : Shared ι κ} {v : View ι}
  {c : Cfg ι κ} {r : ι} {node : Nat}

/-- Nothing is in the hand of the owner between two of its operations. -/
theorem rest_of_between (h : (logic ι κ cfg lim).GoodAt c v) (hbetween : c.next? = some .between)
    : v.Rest := by
  obtain ⟨v', hghost⟩ := ghost_of_next h hbetween (rfl : _ = ((Op.between : Op ι κ).run {} c.own c.sh)) trivial
  cases hghost with
  | look hlooks => simp [Op.looks] at hlooks
  | between hrest => exact hrest

/-- The place of a request while nothing is in the hand of the owner. -/
theorem Inv.place_of_rest (h : Inv cfg lim own sh v) (hrest : v.Rest) (r : ι)
    : v.place r = .away ∨ v.place r = .fifo (sh.heap r).nodeId
      ∨ v.place r = .active (sh.heap r).nodeId := by
  have hhand : (v.place r).inHand = false := by
    by_contra hhand
    have hr := h.lists.hand_of_inHand (by simpa using hhand)
    simp [hrest.1] at hr
  have hnode := (h.requests r).node_eq
  cases hplace : v.place r with
  | away => exact .inl rfl
  | fifo node => simp [hnode node (by simp [hplace, Place.node?])]
  | active node => simp [hnode node (by simp [hplace, Place.node?])]
  | detached =>
    have hmem := (h.lists.mem_detached r).mpr hplace
    rw [hrest.2] at hmem
    cases hmem
  | _ => simp [hplace, Place.inHand] at hhand

/-- A request whose command was taken out of the queue is held or terminal. -/
theorem Inv.terminal_of_taken (h : Inv cfg lim own sh v) (htaken : r ∈ own.takenSdo)
    (haway : v.place r = .away) : (sh.heap r).state.terminal := by
  obtain ⟨hnew, hsent⟩ := h.sent.published r (h.mem_sent htaken)
  have hqueued : ¬((sh.heap r).state = .queued ∨ (sh.heap r).state = .cancelPending) := by
    intro hst
    have hmem := (h.requests r).queued_iff.mpr ⟨haway, hst, hsent⟩
    have hnodup := h.sent.nodup
    rw [← h.commands.taken_eq, List.filterMap_append, List.nodup_append] at hnodup
    refine hnodup.2.2 r ?_ r ?_ rfl
    . rw [List.filterMap_map]
      exact htaken
    . exact List.mem_filterMap.mpr ⟨_, hmem, rfl⟩
  have hadmits := (h.requests r).place_admits
  rw [haway] at hadmits
  simp only [not_or] at hqueued
  simpa [Place.admits, hnew, hqueued] using hadmits

theorem Inv.takenSdo_nodup (h : Inv cfg lim own sh v) : own.takenSdo.Nodup := by
  have hnodup := h.sent.nodup
  rw [← h.commands.taken_eq, List.filterMap_append, List.nodup_append, List.filterMap_map] at hnodup
  exact hnodup.1

/-- What the slot and the FIFO of a node hold. -/
structure Scheduled (cfg : BuildConfig) (own : Own ι κ) (sh : Shared ι κ) (node : Nat)
    (fifo : List ι) : Prop where
  active : ∀ r, own.sdoActive node = some r ↔ (sh.heap r).nodeId = node
    ∧ ((sh.heap r).state = .active ∨ (sh.heap r).state = .activeCancelPinned)
  head : own.sdoPending node = fifo.head?
  threaded : Threaded sh.next fifo
  nodup : fifo.Nodup
  length : fifo.length ≤ cfg.sdoQueueDepth
  fifo_node : ∀ r ∈ fifo, (sh.heap r).nodeId = node
  fifo_state : ∀ r ∈ fifo, (sh.heap r).state = .pending ∨ (sh.heap r).state = .cancelPending
    ∨ (sh.heap r).state = .pendingCancelPinned
  not_active : ∀ r ∈ fifo, own.sdoActive node ≠ some r
  taken : ∀ r ∈ own.takenSdo, (sh.heap r).nodeId = node →
    own.sdoActive node = some r ∨ r ∈ fifo ∨ (sh.heap r).state.terminal

theorem Inv.scheduled (h : Inv cfg lim own sh v) (hrest : v.Rest) (node : Nat)
    : Scheduled cfg own sh node (v.fifo node) := by
  have hfifo (r : ι) (hr : r ∈ v.fifo node) : v.place r = .fifo node :=
    h.lists.place_of_mem hrest.1 hr
  constructor
  case active =>
    intro r
    rw [h.lists.active_iff node r]
    have hadmits := (h.requests r).place_admits
    constructor
    . intro hplace
      refine ⟨(h.requests r).node_eq node (by simp [hplace, Place.node?]), ?_⟩
      simpa [hplace, Place.admits] using hadmits
    . rintro ⟨hnode, hst⟩
      obtain hplace | hplace | hplace := h.place_of_rest hrest r
      . obtain hst | hst := hst <;> simp [hplace, hst, Place.admits, ReqState.terminal, ReqState.staged] at hadmits
      . obtain hst | hst := hst <;> simp [hplace, hst, Place.admits] at hadmits
      . rw [hplace, hnode]
  case head => exact h.lists.pending_eq node
  case threaded => exact h.lists.fifo_threaded node
  case nodup => exact h.lists.fifo_nodup node
  case length => exact h.lists.fifo_length node
  case fifo_node =>
    intro r hr
    exact (h.requests r).node_eq node (by simp [hfifo r hr, Place.node?])
  case fifo_state =>
    intro r hr
    have hadmits := (h.requests r).place_admits
    simp only [hfifo r hr, Place.admits, decide_eq_true_eq] at hadmits
    exact hadmits.imp_right Or.symm
  case not_active =>
    intro r hr hactive
    have hplace := (h.lists.active_iff node r).mp hactive
    simp [hfifo r hr] at hplace
  case taken =>
    intro r htaken hnode
    obtain hplace | hplace | hplace := h.place_of_rest hrest r
    . exact .inr (.inr (h.terminal_of_taken htaken hplace))
    . exact .inr (.inl ((h.lists.mem_fifo node r).mpr (.inl (hnode ▸ hplace))))
    . exact .inl ((h.lists.active_iff node r).mpr (hnode ▸ hplace))

/--
The scheduling of a node between two operations of the owner: the active request and a FIFO without
duplicates, bounded by the configured depth, account for every request of the node that was
dispatched and is not terminal; and requests became active in the order of their dispatch.
-/
theorem scheduled_between (hreach : (machine ι κ cfg).Reach (Starts cfg) c)
    (hbetween : c.next? = some .between) (node : Nat)
    : (∃ fifo, Scheduled cfg c.own c.sh node fifo)
      ∧ (c.sh.ofNode node c.own.activated).Sublist (c.sh.ofNode node c.own.takenSdo)
      ∧ c.own.takenSdo.Nodup := by
  obtain ⟨v, hv⟩ := good_of_reach hreach
  refine ⟨⟨v.fifo node, hv.1.scheduled (rest_of_between hv hbetween) node⟩, ?_,
    hv.1.takenSdo_nodup⟩
  exact (List.sublist_append_left _ _).trans (hv.1.order node)

/-- Two requests of one node were dispatched, and the second one waits behind the first one. -/
theorem scheduled_between_two
    : ∃ c : Cfg Bool Unit, (machine Bool Unit .small).Reach (Starts .small) c
      ∧ c.next? = some .between ∧ c.own.takenSdo = [false, true] ∧ c.own.sdoActive 5 = some false
      ∧ c.own.sdoPending 5 = some true ∧ ∃ fifo, Scheduled .small c.own c.sh 5 fifo := by
  obtain ⟨c, hreach, hc⟩ := reach_of_runAlong (starts_blank Bool Unit .small)
    (Choice.starts ++ Choice.uploads 17 false 5 ++ Choice.uploads 17 true 5 ++ Choice.dispatches
      ++ Choice.owners 29 { pick := true, outcome := .started })
    (fun c => c.atBetween ∧ c.own.takenSdo = [false, true] ∧ c.own.sdoActive 5 = some false
      ∧ c.own.sdoPending 5 = some true) (by decide +kernel)
  simp only [decide_eq_true_eq] at hc
  have hbetween := Cfg.next_of_atBetween hc.1
  exact ⟨c, hreach, hbetween, hc.2.1, hc.2.2.1, hc.2.2.2, (scheduled_between hreach hbetween 5).1⟩

end LelyRtt
