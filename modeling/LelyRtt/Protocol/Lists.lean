import LelyRtt.Conc.Threaded
import LelyRtt.Protocol.Frame

/-!
This module contains the part of the invariant about the owner's data structures: the slots for
active transfers, the FIFOs and the Client-SDOs hold exactly the requests whose place says so.
-/

namespace LelyRtt

open Conc

variable {ι κ : Type}

/-- The `next` pointers of all requests. -/
def Shared.next (sh : Shared ι κ) (r : ι) : Option ι := (sh.heap r).next

structure Lists (cfg : BuildConfig) (own : Own ι κ) (sh : Shared ι κ) (v : View ι) : Prop where
  hand_iff : ∀ r, v.hand = some r ↔ (v.place r).inHand
  mem_fifo : ∀ node r, r ∈ v.fifo node ↔ v.place r = .fifo node ∨ v.place r = .promoted node
  promoted_head : ∀ node r, v.place r = .promoted node → (v.fifo node).head? = some r
  fifo_nodup : ∀ node, (v.fifo node).Nodup
  fifo_length : ∀ node, (v.fifo node).length ≤ cfg.sdoQueueDepth
  fifo_threaded : ∀ node, Threaded sh.next (v.fifo node)
  pending_eq : ∀ node, own.sdoPending node = (v.fifo node).head?
  active_iff : ∀ node r, own.sdoActive node = some r ↔ v.place r = .active node
  mem_detached : ∀ r, r ∈ v.detached ↔ v.place r = .detached
  detached_nodup : v.detached.Nodup
  detached_threaded : Threaded sh.next v.detached
  busy : ∀ chan r, own.csdo chan = some (.busy r) → ∃ node, v.place r = .active node
    ∧ chan = own.misc.chan node ∧ own.misc.masterNmt = true ∧ own.misc.canNet = true

namespace Lists

variable {cfg : BuildConfig} {own own' : Own ι κ} {sh sh' : Shared ι κ} {v : View ι} {r : ι}
  {place : Place}

theorem congr (h : Lists cfg own sh v) (hactive : own'.sdoActive = own.sdoActive)
    (hpending : own'.sdoPending = own.sdoPending) (hcsdo : own'.csdo = own.csdo)
    (hmisc : own'.misc = own.misc)
    (hnext : ∀ r, (v.place r).linked → sh'.next r = sh.next r)
    : Lists cfg own' sh' v where
  hand_iff := h.hand_iff
  mem_fifo := h.mem_fifo
  promoted_head := h.promoted_head
  fifo_nodup := h.fifo_nodup
  fifo_length := h.fifo_length
  fifo_threaded := by
    intro node
    apply (h.fifo_threaded node).congr
    intro r hr
    apply hnext
    obtain hr | hr := (h.mem_fifo node r).mp hr <;> rw [hr] <;> rfl
  pending_eq := by simpa only [hpending] using h.pending_eq
  active_iff := by simpa only [hactive] using h.active_iff
  mem_detached := h.mem_detached
  detached_nodup := h.detached_nodup
  detached_threaded := by
    apply h.detached_threaded.congr
    intro r hr
    apply hnext
    rw [(h.mem_detached r).mp hr]
    rfl
  busy := by simpa only [hcsdo, hmisc] using h.busy

/-- Everything but the request in the hand of the owner is out of its hand. -/
theorem inHand_of_ne (h : Lists cfg own sh v) (hhand : v.hand = none ∨ v.hand = some r) {r' : ι}
    (hne : r' ≠ r) : (v.place r').inHand = false := by
  by_contra htrue
  have hr' := (h.hand_iff r').mpr (by simpa using htrue)
  obtain hhand | hhand := hhand <;> simp_all

theorem hand_of_inHand (h : Lists cfg own sh v) (hr : (v.place r).inHand) : v.hand = some r :=
  (h.hand_iff r).mpr hr

/-- What the view says about the list that a request is linked into. -/
theorem place_of_mem (h : Lists cfg own sh v) (hhand : v.hand = none) {node : Nat} {r' : ι}
    (hr' : r' ∈ v.fifo node) : v.place r' = .fifo node := by
  obtain hr' | hr' := (h.mem_fifo node r').mp hr'
  . exact hr'
  . have hin := h.hand_of_inHand (by rw [hr']; rfl)
    simp [hhand] at hin

theorem view_congr (h : Lists cfg own sh v) {v' : View ι} (hplace : v'.place = v.place)
    (hhand : v'.hand = v.hand) (hfifo : v'.fifo = v.fifo) (hdetached : v'.detached = v.detached)
    : Lists cfg own sh v' := by
  constructor <;> simp only [hplace, hhand, hfifo, hdetached]
  . exact h.hand_iff
  . exact h.mem_fifo
  . exact h.promoted_head
  . exact h.fifo_nodup
  . exact h.fifo_length
  . exact h.fifo_threaded
  . exact h.pending_eq
  . exact h.active_iff
  . exact h.mem_detached
  . exact h.detached_nodup
  . exact h.detached_threaded
  . exact h.busy

variable [DecidableEq ι]

/-- A request that is in no list and no slot goes to a place of that kind. -/
theorem put (h : Lists cfg own sh v) (hhand : v.hand = none ∨ v.hand = some r)
    (hold : (v.place r).loose) (hnew : place.loose) : Lists cfg own sh (v.put r place) where
  hand_iff := by
    intro r'
    simp only [View.put, Function.update_apply]
    by_cases heq : r' = r
    . subst heq
      cases hin : place.inHand <;> simp [hin]
    . have hin := h.inHand_of_ne hhand heq
      have hne : ¬r = r' := fun h => heq h.symm
      cases hplace : place.inHand <;> simp [heq, hin, hne]
  mem_fifo := by
    intro node r'
    rw [show (v.put r place).fifo = v.fifo from rfl, h.mem_fifo node r']
    simp only [View.put, Function.update_apply]
    split
    next heq =>
      subst heq
      cases hp : v.place r' <;> cases hq : place <;> simp_all [Place.loose]
    next => rfl
  promoted_head := by
    intro node r' hr'
    apply h.promoted_head node r'
    simp only [View.put, Function.update_apply] at hr'
    split at hr'
    next heq => simp_all [Place.loose]
    next => exact hr'
  fifo_nodup := h.fifo_nodup
  fifo_length := h.fifo_length
  fifo_threaded := h.fifo_threaded
  pending_eq := h.pending_eq
  active_iff := by
    intro node r'
    rw [h.active_iff node r']
    simp only [View.put, Function.update_apply]
    split
    next heq =>
      subst heq
      cases hp : v.place r' <;> cases hq : place <;> simp_all [Place.loose]
    next => rfl
  mem_detached := by
    intro r'
    rw [show (v.put r place).detached = v.detached from rfl, h.mem_detached r']
    simp only [View.put, Function.update_apply]
    split
    next heq =>
      subst heq
      cases hp : v.place r' <;> cases hq : place <;> simp_all [Place.loose]
    next => rfl
  detached_nodup := h.detached_nodup
  detached_threaded := h.detached_threaded
  busy := by
    intro chan r' hbusy
    obtain ⟨node, hplace, hrest⟩ := h.busy chan r' hbusy
    refine ⟨node, ?_, hrest⟩
    have hne : r' ≠ r := by
      rintro rfl
      simp [hplace, Place.loose] at hold
    simpa [View.put, hne] using hplace

/--
The FIFO of a node changes together with the place of one request, from a place to another that are
both outside the slots and the detached list.
-/
theorem relink (h : Lists cfg own sh v) (hhand : v.hand = none ∨ v.hand = some r) {node : Nat}
    {fifo : List ι} (hold : ∀ node, v.place r ≠ .active node) (hold' : v.place r ≠ .detached)
    (hnew : ∀ node, place ≠ .active node) (hnew' : place ≠ .detached)
    (hmem : ∀ r', r' ∈ fifo ↔ if r' = r then place = .fifo node ∨ place = .promoted node
      else r' ∈ v.fifo node)
    (hother : ∀ node', node' ≠ node →
      ((v.place r = .fifo node' ∨ v.place r = .promoted node')
        ↔ (place = .fifo node' ∨ place = .promoted node')))
    (hhead : ∀ node', place = .promoted node' → node' = node ∧ fifo.head? = some r)
    (hnodup : fifo.Nodup) (hlength : fifo.length ≤ cfg.sdoQueueDepth)
    (hthreaded : Threaded sh'.next fifo)
    (hnext : ∀ r', r' ∉ v.fifo node → (v.place r').linked → sh'.next r' = sh.next r')
    (hpending : own'.sdoPending = Function.update own.sdoPending node fifo.head?)
    (hactive : own'.sdoActive = own.sdoActive) (hcsdo : own'.csdo = own.csdo)
    (hmisc : own'.misc = own.misc)
    : Lists cfg own' sh' ((v.put r place).setFifo node fifo) where
  hand_iff := by
    intro r'
    simp only [View.put, View.setFifo, Function.update_apply]
    by_cases heq : r' = r
    . subst heq
      cases hin : place.inHand <;> simp [hin]
    . have hin := h.inHand_of_ne hhand heq
      have hne : ¬r = r' := fun h => heq h.symm
      cases hplace : place.inHand <;> simp [heq, hin, hne]
  mem_fifo := by
    intro node' r'
    simp only [View.put, View.setFifo, Function.update_apply]
    by_cases hnode : node' = node
    . subst hnode
      rw [if_pos rfl, hmem]
      split
      . rfl
      . exact h.mem_fifo _ r'
    . rw [if_neg hnode, h.mem_fifo]
      split
      next heq => rw [heq, hother node' hnode]
      next => rfl
  promoted_head := by
    intro node' r' hr'
    simp only [View.put, View.setFifo, Function.update_apply] at hr' ⊢
    split at hr'
    next heq =>
      obtain ⟨rfl, hfirst⟩ := hhead node' hr'
      simp [heq, hfirst]
    next heq =>
      have hin := h.hand_of_inHand (r := r') (by rw [hr']; rfl)
      obtain hhand | hhand := hhand <;> simp_all
  fifo_nodup := by
    intro node'
    simp only [View.setFifo, View.put, Function.update_apply]
    split
    . exact hnodup
    . exact h.fifo_nodup node'
  fifo_length := by
    intro node'
    simp only [View.setFifo, View.put, Function.update_apply]
    split
    . exact hlength
    . exact h.fifo_length node'
  fifo_threaded := by
    intro node'
    simp only [View.setFifo, View.put, Function.update_apply]
    split
    . exact hthreaded
    next hnode =>
      apply (h.fifo_threaded node').congr
      intro r' hr'
      have hplace := (h.mem_fifo node' r').mp hr'
      apply hnext
      . intro hmem'
        have hplace' := (h.mem_fifo node r').mp hmem'
        obtain hplace | hplace := hplace <;> obtain hplace' | hplace' := hplace'
          <;> simp_all
      . obtain hplace | hplace := hplace <;> rw [hplace] <;> rfl
  pending_eq := by
    intro node'
    rw [hpending]
    simp only [View.setFifo, View.put, Function.update_apply]
    split
    . rfl
    . exact h.pending_eq node'
  active_iff := by
    intro node' r'
    rw [hactive, h.active_iff]
    simp only [View.setFifo, View.put, Function.update_apply]
    split
    next heq => simp [heq, hold, hnew]
    next => rfl
  mem_detached := by
    intro r'
    simp only [View.setFifo, View.put, Function.update_apply]
    rw [h.mem_detached]
    split
    next heq => simp [heq, hold', hnew']
    next => rfl
  detached_nodup := h.detached_nodup
  detached_threaded := by
    apply h.detached_threaded.congr
    intro r' hr'
    have hplace := (h.mem_detached r').mp hr'
    apply hnext
    . intro hmem'
      have hplace' := (h.mem_fifo node r').mp hmem'
      simp [hplace] at hplace'
    . rw [hplace]
      rfl
  busy := by
    intro chan r' hbusy
    rw [hcsdo] at hbusy
    obtain ⟨node', hplace, hrest⟩ := h.busy chan r' hbusy
    refine ⟨node', ?_, by rw [hmisc]; exact hrest⟩
    have hne : r' ≠ r := by
      rintro rfl
      exact hold node' hplace
    simpa [View.setFifo, View.put, hne] using hplace

section

variable {lim : Limits} {o : Op ι κ} {input : Input} {b : o.Res} {v' : View ι}

/-- An operation that writes no slot and no `next` pointer. -/
theorem frame (h : Lists cfg own sh v) (hexec : o.run input own sh = (b, own', sh'))
    (hslots : o.keepsSlots) (hnext : ∀ r next, o ≠ .setNext r next) : Lists cfg own' sh' v := by
  obtain ⟨hactive, hpending, hcsdo, hmisc⟩ := run_slots input own sh hslots
  have hnext' := run_next input own sh hnext
  rw [hexec] at hactive hpending hcsdo hmisc hnext'
  exact h.congr hactive hpending hcsdo hmisc fun r _ => hnext' r

theorem next_setNext (sh : Shared ι κ) (r : ι) (next : Option ι)
    : (sh.modify r fun request => { request with next := next }).next
      = Function.update sh.next r next := by
  funext r'
  simp only [Shared.next, Shared.modify_heap, Function.update_apply]
  split <;> rfl

theorem setNext_congr (h : Lists cfg own sh v) {next : Option ι}
    (hlinked : (v.place r).linked = false)
    : Lists cfg own (sh.modify r fun request => { request with next := next }) v := by
  apply h.congr rfl rfl rfl rfl
  intro r' hr'
  have hne : r' ≠ r := by
    rintro rfl
    simp [hr'] at hlinked
  rw [next_setNext, Function.update_of_ne hne]

theorem linkFirst (h : Lists cfg own sh v) {node : Nat} (hplace : v.place r = .joining node true)
    (hfifo : v.fifo node = []) (hnext : sh.next r = none)
    : Lists cfg { own with sdoPending := Function.update own.sdoPending node (some r) } sh
        ((v.put r (.fifo node)).setFifo node [r]) := by
  have hhand := h.hand_of_inHand (by rw [hplace]; rfl)
  apply h.relink (.inr hhand)
  case hpending => rfl
  case hthreaded => simp [hnext]
  all_goals simp_all [cfg.sdoQueueDepth_pos]
  omega

theorem link (h : Lists cfg own sh v) {node : Nat} {front : List ι} {tail : ι}
    (hplace : v.place r = .joining node true) (hfifo : v.fifo node = front ++ [tail])
    (hlength : (v.fifo node).length < cfg.sdoQueueDepth) (hnext : sh.next r = none)
    : Lists cfg own (sh.modify tail fun request => { request with next := some r })
        ((v.put r (.fifo node)).setFifo node (front ++ [tail, r])) := by
  have hhand := h.hand_of_inHand (by rw [hplace]; rfl)
  have hnodup := h.fifo_nodup node
  have hthreaded := h.fifo_threaded node
  have hnotMem : r ∉ v.fifo node := by
    rw [h.mem_fifo, hplace]
    simp
  apply h.relink (.inr hhand)
  case hpending =>
    funext node'
    simp only [Function.update_apply]
    split
    next heq => rw [heq, h.pending_eq, hfifo]; cases front <;> rfl
    next => rfl
  case hthreaded =>
    rw [hfifo] at hnodup hthreaded hnotMem
    rw [next_setNext]
    exact hthreaded.link hnodup hnext hnotMem
  case hnext =>
    intro r' hr' _
    have hne : r' ≠ tail := by
      rintro rfl
      simp [hfifo] at hr'
    rw [next_setNext, Function.update_of_ne hne]
  case hnodup =>
    rw [hfifo] at hnodup hnotMem
    have hperm : (front ++ [tail, r]) = (front ++ [tail]) ++ [r] := by simp
    rw [hperm, ← List.concat_eq_append, List.nodup_concat]
    exact ⟨hnotMem, hnodup⟩
  case hlength =>
    rw [hfifo] at hlength
    simp at hlength ⊢
    omega
  case hmem =>
    intro r'
    rw [hfifo]
    by_cases heq : r' = r <;> simp [heq]
  case hother =>
    intro node' hnode
    simp [hplace, Ne.symm hnode]
  all_goals simp_all

theorem promote (h : Lists cfg own sh v) {node : Nat} {rest : List ι} (hhand : v.hand = none)
    (hplace : v.place r = .fifo node) (hfifo : v.fifo node = r :: rest)
    : Lists cfg own sh ((v.put r (.promoted node)).setFifo node (r :: rest)) := by
  have hnodup := h.fifo_nodup node
  have hthreaded := h.fifo_threaded node
  have hlength := h.fifo_length node
  rw [hfifo] at hnodup hthreaded hlength
  apply h.relink (.inl hhand)
  case hpending =>
    funext node'
    simp only [Function.update_apply]
    split
    next heq => rw [heq, h.pending_eq, hfifo]
    next => rfl
  case hthreaded => exact hthreaded
  case hnodup => exact hnodup
  case hlength => exact hlength
  case hmem =>
    intro r'
    by_cases heq : r' = r <;> simp [heq, hfifo]
  all_goals simp [hplace]

/-- The head of a FIFO is unlinked. -/
theorem pop (h : Lists cfg own sh v) {node : Nat} {rest : List ι}
    (hhand : v.hand = none ∨ v.hand = some r)
    (hplace : v.place r = .fifo node ∨ v.place r = .promoted node)
    (hfifo : v.fifo node = r :: rest) (hnew : place.loose)
    : Lists cfg { own with sdoPending := Function.update own.sdoPending node rest.head? } sh
        ((v.put r place).setFifo node rest) := by
  have hnodup := h.fifo_nodup node
  have hthreaded := h.fifo_threaded node
  have hlength := h.fifo_length node
  rw [hfifo] at hnodup hthreaded hlength
  apply h.relink hhand
  case hpending => rfl
  case hthreaded => exact hthreaded.2
  case hnodup => exact hnodup.of_cons
  case hlength =>
    simp at hlength
    omega
  case hmem =>
    intro r'
    rw [hfifo]
    by_cases heq : r' = r
    . subst heq
      cases place <;> simp_all [Place.loose]
    . simp [heq]
  case hother =>
    intro node' hnode
    obtain hplace | hplace := hplace <;> cases place <;> simp_all [Place.loose]
      <;> exact fun heq => hnode heq.symm
  all_goals obtain hplace | hplace := hplace <;> cases place <;> simp_all [Place.loose]

theorem unlink (h : Lists cfg own sh v) {node : Nat} {front rest : List ι} {prev : ι}
    (hhand : v.hand = none) (hplace : v.place r = .fifo node)
    (hfifo : v.fifo node = front ++ prev :: r :: rest)
    : Lists cfg own (sh.modify prev fun request => { request with next := rest.head? })
        ((v.put r (.ending .pend false false)).setFifo node (front ++ prev :: rest)) := by
  have hnodup := h.fifo_nodup node
  have hthreaded := h.fifo_threaded node
  have hlength := h.fifo_length node
  rw [hfifo] at hnodup hthreaded hlength
  apply h.relink (.inl hhand)
  case hpending =>
    funext node'
    simp only [Function.update_apply]
    split
    next heq => rw [heq, h.pending_eq, hfifo]; cases front <;> rfl
    next => rfl
  case hthreaded =>
    have hnext : sh.next r = rest.head? := by
      have happ : front ++ prev :: r :: rest = (front ++ [prev]) ++ r :: rest := by simp
      rw [happ] at hthreaded
      exact hthreaded.next_eq
    rw [next_setNext, ← hnext]
    exact hthreaded.unlink hnodup
  case hnext =>
    intro r' hr' _
    have hne : r' ≠ prev := by
      rintro rfl
      simp [hfifo] at hr'
    rw [next_setNext, Function.update_of_ne hne]
  case hnodup =>
    refine List.Nodup.sublist ?_ hnodup
    simp
  case hlength =>
    simp at hlength ⊢
    omega
  case hmem =>
    intro r'
    rw [hfifo]
    by_cases heq : r' = r
    . subst heq
      simp [List.nodup_append] at hnodup
      grind
    . simp [heq]
  case hother =>
    intro node' hnode
    simp [hplace, Ne.symm hnode]
  all_goals simp [hplace]

theorem detach (h : Lists cfg own sh v) {node : Nat} (hrest : v.Rest)
    : Lists cfg { own with sdoPending := Function.update own.sdoPending node none } sh
        (v.detach node) := by
  obtain ⟨hhand, hdetached⟩ := hrest
  have hplace {r : ι} {node : Nat} : r ∈ v.fifo node → v.place r = .fifo node :=
    h.place_of_mem hhand
  have hnone (r : ι) : v.place r ≠ .detached := by
    rw [ne_eq, ← h.mem_detached, hdetached]
    simp
  have hin (r : ι) : (v.place r).inHand = false := by
    simpa [hhand] using (h.hand_iff r).not
  have hpromoted (r : ι) (node : Nat) : v.place r ≠ .promoted node := by
    intro heq
    simpa [heq, Place.inHand] using hin r
  constructor <;> simp only [View.detach, View.setFifo, Function.update_apply]
  case hand_iff =>
    intro r
    split
    . simp [hhand, Place.inHand]
    . simp [hhand, hin]
  case mem_fifo =>
    intro node' r
    have hmem := h.mem_fifo node' r
    have hmem' := h.mem_fifo node r
    split <;> split <;> simp_all
    next hne _ => exact fun heq => hne heq.symm
  case promoted_head =>
    intro node' r hr
    split at hr <;> simp_all
  case fifo_nodup =>
    intro node'
    split <;> simp [h.fifo_nodup]
  case fifo_length =>
    intro node'
    split <;> simp [h.fifo_length]
  case fifo_threaded =>
    intro node'
    split <;> simp [h.fifo_threaded]
  case pending_eq =>
    intro node'
    split <;> simp [h.pending_eq]
  case active_iff =>
    intro node' r
    rw [h.active_iff]
    split
    next hmem => simp [hplace hmem]
    next => rfl
  case mem_detached =>
    intro r
    split <;> simp_all
  case detached_nodup => exact h.fifo_nodup node
  case detached_threaded => exact h.fifo_threaded node
  case busy =>
    intro chan r hbusy
    obtain ⟨node', hactive, hother⟩ := h.busy chan r hbusy
    refine ⟨node', ?_, hother⟩
    split
    next hmem => simp [hplace hmem] at hactive
    next => exact hactive

theorem takeDetached (h : Lists cfg own sh v) {rest : List ι} (hhand : v.hand = none)
    (hdetached : v.detached = r :: rest)
    : Lists cfg own (sh.modify r fun request => { request with next := none })
        { v.put r (.ending .pend false false) with detached := rest } := by
  have hplace : v.place r = .detached := (h.mem_detached r).mp (by simp [hdetached])
  have hnodup := h.detached_nodup
  have hthreaded := h.detached_threaded
  rw [hdetached, List.nodup_cons] at hnodup
  rw [hdetached] at hthreaded
  have hnext (r' : ι) (hne : r' ≠ r)
      : (sh.modify r fun request => { request with next := none }).next r' = sh.next r' := by
    rw [next_setNext, Function.update_of_ne hne]
  constructor <;> simp only [View.put, Function.update_apply]
  case hand_iff =>
    intro r'
    by_cases heq : r' = r
    . simp [heq, Place.inHand]
    . have hin := h.inHand_of_ne (.inl hhand) heq
      simp only [heq, ↓reduceIte, hin]
      simp [Place.inHand, Ne.symm heq]
  case mem_fifo =>
    intro node r'
    have hmem := h.mem_fifo node r'
    split <;> simp_all
  case promoted_head =>
    intro node r' hr'
    split at hr'
    . simp at hr'
    . exact h.promoted_head node r' hr'
  case fifo_nodup => exact h.fifo_nodup
  case fifo_length => exact h.fifo_length
  case fifo_threaded =>
    intro node
    apply (h.fifo_threaded node).congr
    intro r' hr'
    apply hnext
    rintro rfl
    simp [h.mem_fifo, hplace] at hr'
  case pending_eq => exact h.pending_eq
  case active_iff =>
    intro node r'
    rw [h.active_iff]
    split <;> simp_all
  case mem_detached =>
    intro r'
    have hmem := h.mem_detached r'
    rw [hdetached, List.mem_cons] at hmem
    split
    next heq => simp [heq, hnodup.1]
    next heq => simpa [heq] using hmem
  case detached_nodup => exact hnodup.2
  case detached_threaded =>
    apply hthreaded.2.congr
    intro r' hr'
    apply hnext
    rintro rfl
    exact hnodup.1 hr'
  case busy =>
    intro chan r' hbusy
    obtain ⟨node, hactive, hother⟩ := h.busy chan r' hbusy
    refine ⟨node, ?_, hother⟩
    split <;> simp_all

/-- A request enters or leaves the slot for the active transfer of its node. -/
theorem setActive (h : Lists cfg own sh v) {node : Nat} {request : Option ι}
    (hhand : v.hand = none ∨ v.hand = some r) (hlinked : (v.place r).linked = false)
    (hlinked' : place.linked = false)
    (hold : ∀ node', node' ≠ node → v.place r ≠ .active node')
    (hnew : ∀ node', place = .active node' ↔ node' = node ∧ request = some r)
    (hrequest : request = none ∨ request = some r)
    (hslot : own.sdoActive node = none ∨ own.sdoActive node = some r)
    (hbusy : ∀ chan, own.csdo chan ≠ some (.busy r)) (activated : List ι)
    : Lists cfg
        {
          own with
            sdoActive := Function.update own.sdoActive node request
            activated := activated
        }
        sh (v.put r place) := by
  constructor <;> simp only [View.put, Function.update_apply]
  case hand_iff =>
    intro r'
    by_cases heq : r' = r
    . subst heq
      cases hin : place.inHand <;> simp [hin]
    . have hin := h.inHand_of_ne hhand heq
      cases hplace : place.inHand <;> simp [heq, hin, Ne.symm heq]
  case mem_fifo =>
    intro node' r'
    rw [h.mem_fifo]
    split
    next heq => subst heq; cases hp : v.place r' <;> cases place <;> simp_all [Place.linked]
    next => rfl
  case promoted_head =>
    intro node' r' hr'
    split at hr'
    next => simp [hr', Place.linked] at hlinked'
    next => exact h.promoted_head node' r' hr'
  case fifo_nodup => exact h.fifo_nodup
  case fifo_length => exact h.fifo_length
  case fifo_threaded => exact h.fifo_threaded
  case pending_eq => exact h.pending_eq
  case active_iff =>
    intro node' r'
    have hactive := h.active_iff node' r'
    by_cases hr : r' = r <;> by_cases hn : node' = node
    . subst hr hn
      simp [hnew]
    . subst hr
      simp [hn, hnew, hactive, hold node' hn]
    . subst hn
      obtain hrequest | hrequest := hrequest <;> obtain hslot | hslot := hslot
        <;> simp_all [Ne.symm hr]
    . simp [hr, hn, hactive]
  case mem_detached =>
    intro r'
    rw [h.mem_detached]
    split
    next heq => subst heq; cases hp : v.place r' <;> cases place <;> simp_all [Place.linked]
    next => rfl
  case detached_nodup => exact h.detached_nodup
  case detached_threaded => exact h.detached_threaded
  case busy =>
    intro chan r' hchan
    obtain ⟨node', hactive, hother⟩ := h.busy chan r' hchan
    have hne : r' ≠ r := by
      rintro rfl
      exact hbusy chan hchan
    exact ⟨node', by simpa [hne] using hactive, hother⟩

theorem exec (h : Lists cfg own sh v) (hexec : o.run input own sh = (b, own', sh'))
    (hghost : Ghost cfg lim o own sh b v v')
    (hjoining : ∀ r node, v.place r = .joining node true → sh.next r = none)
    (haway : ∀ entry r, entry ∈ sh.queue → entry.command = .sdo r → v.place r = .away)
    : Lists cfg own' sh' v' := by
  cases hghost with
  | look hlooks => cases o <;> simp [Op.looks] at hlooks <;> exact h.frame hexec rfl (by simp)
  | touchCancel | touchBuffer | publishFailed | pin | stageFailed | unpin | quiesce
  | closeCallbacks | delete | storeLocalNodeId | mark | start | receiveNone =>
    exact h.frame hexec rfl (by simp)
  | loadSettled | promoteFailed | between | latch | commandsIdle | openCallbacks | create | noQueue
  | emptyQueue | receive | cancelsIdle | receiveOther | receiveCancel | resetCallbacks =>
    exact (h.frame hexec rfl (by simp)).view_congr rfl rfl rfl rfl
  | loadDropped hplace | claimPending hplace | claimActive hplace | claimDoomed hplace
  | claimTeardown hplace | claimFailed hplace | hold hplace | unhold hplace | publish hplace
  | send hplace | finish hplace | stage _ hplace =>
    have hhand := h.hand_of_inHand (by rw [hplace]; rfl)
    exact (h.put (.inr hhand) (by rw [hplace]; rfl) rfl).frame hexec rfl (by simp)
  | @setResult r _ _ _ _ _ _ _ kind hkind =>
    have hin : (v.place r).inHand ∧ (v.place r).loose := by
      cases hplace : v.place r <;> simp_all [Place.ending?, Place.inHand, Place.loose]
    exact (h.put (.inr (h.hand_of_inHand hin.1)) hin.2 rfl).frame hexec rfl (by simp)
  | @clearNext r _ _ _ _ _ hloose =>
    cases hexec
    apply h.setNext_congr
    cases hplace : v.place r <;> simp_all [Place.loose, Place.linked]
  | clearJoining hplace =>
    cases hexec
    have hhand := h.hand_of_inHand (by rw [hplace]; rfl)
    apply (h.put (.inr hhand) (by rw [hplace]; rfl) rfl).setNext_congr
    simp [View.put, Place.linked]
  | linkFirst hplace hfifo =>
    cases hexec
    exact h.linkFirst hplace hfifo (hjoining _ _ hplace)
  | link hplace hfifo hlength =>
    cases hexec
    exact h.link hplace hfifo hlength (hjoining _ _ hplace)
  | promote hrest hplace hfifo => exact (h.promote hrest.1 hplace hfifo).frame hexec rfl (by simp)
  | popPromoted hplace hfifo =>
    cases hexec
    have hhand := h.hand_of_inHand (by rw [hplace]; rfl)
    exact h.pop (.inr hhand) (.inr hplace) hfifo rfl
  | popCanceled hrest hplace hfifo =>
    cases hexec
    exact h.pop (.inl hrest.1) (.inl hplace) hfifo rfl
  | unlink hrest hplace hfifo =>
    cases hexec
    exact h.unlink hrest.1 hplace hfifo
  | detach hrest =>
    cases hexec
    exact h.detach hrest
  | takeDetached hhand hdetached =>
    cases hexec
    exact h.takeDetached hhand hdetached
  | @activate r _ _ _ _ node hplace hslot =>
    cases hexec
    have hhand := h.hand_of_inHand (by rw [hplace]; rfl)
    apply h.setActive (.inr hhand) (by rw [hplace]; rfl) rfl
    case hbusy =>
      intro chan hchan
      obtain ⟨node', hactive, _⟩ := h.busy chan r hchan
      simp [hplace] at hactive
    case hold => simp [hplace]
    case hnew => simp [eq_comm]
    case hrequest => simp
    case hslot => exact .inl hslot
  | @release r _ _ _ _ node hhand hplace hbusy =>
    cases hexec
    apply h.setActive (.inl hhand) (by rw [hplace]; rfl) rfl
    case hbusy => exact hbusy
    case hold =>
      intro node' hnode
      simp [hplace, Ne.symm hnode]
    case hnew => simp
    case hrequest => simp
    case hslot => exact .inr ((h.active_iff node r).mpr hplace)
  | @clearActive _ _ _ _ node hslot =>
    cases hexec
    refine h.congr ?_ rfl rfl rfl (fun _ _ => rfl)
    simp [← hslot]
  | setBusy hplace hmaster hnet =>
    cases hexec
    refine { h with busy := ?_ }
    intro chan r' hbusy
    simp only [Function.update_apply] at hbusy
    split at hbusy
    next heq =>
      simp only [Option.some_inj, Csdo.busy.injEq] at hbusy
      subst hbusy
      exact ⟨_, hplace, heq, hmaster, hnet⟩
    next => exact h.busy chan r' hbusy
  | setCsdo hother =>
    cases hexec
    refine { h with busy := ?_ }
    intro chan r' hbusy
    simp only [Function.update_apply] at hbusy
    split at hbusy
    next => exact absurd hbusy (hother r')
    next => exact h.busy chan r' hbusy
  | setMisc hstep =>
    cases hexec
    refine { h with busy := ?_ }
    intro chan r' hbusy
    obtain ⟨node, hactive, hchan, hnmt, hnet⟩ := h.busy chan r' hbusy
    refine ⟨node, hactive, ?_, ?_⟩
    . rw [hchan, Misc.chan, Misc.chan, hstep.channel]
    . obtain ⟨hnmt', hnet'⟩ | hnone := hstep.master
      . exact ⟨hnmt'.trans hnmt, hnet'.trans hnet⟩
      . have hslot := (h.active_iff node r').mpr hactive
        simp [hnone] at hslot
  | @receiveSdo _ r _ _ _ hrest =>
    obtain ⟨entry, rest, hqueue, hcommand, _⟩ := run_mqReceive_some hexec
    have hplace : v.place r = .away := haway entry r (by simp [hqueue]) hcommand
    have hput : Lists cfg own sh (v.put r (.fresh (sh.heap r).nodeId)) :=
      h.put (.inl hrest.1) (by rw [hplace]; rfl) rfl
    exact (hput.frame hexec rfl (by simp)).view_congr rfl rfl rfl rfl

end

end Lists

/-- The owner gets hold of a request only by taking its command out of the queue. -/
theorem Ghost.held [DecidableEq ι] {cfg : BuildConfig} {lim : Limits} {o : Op ι κ} {own : Own ι κ}
    {sh : Shared ι κ} {b : o.Res} {v v' : View ι} {r : ι} (h : Ghost cfg lim o own sh b v v')
    (hlists : Lists cfg own sh v) (hheld : v'.place r ≠ .away)
    : v.place r ≠ .away ∧ v'.ident r = v.ident r
      ∨ ∃ by_, o = .mqReceive by_ ∧ HEq b (some (.sdo r) : Option (Command ι κ))
        ∧ v.phase.opened = true ∧ v'.ident r = (sh.heap r).requestId
        ∧ v'.place r = .fresh (sh.heap r).nodeId := by
  have hput (r' : ι) (place : Place) : (v.put r' place).place r
      = if r = r' then place else v.place r := by
    simp [View.put, Function.update_apply]
  cases h with
  | @receiveSdo by_ r' _ _ _ hrest hopened =>
    by_cases heq : r = r'
    . subst heq
      exact .inr ⟨by_, rfl, HEq.rfl, hopened, by simp, by simp [View.put]⟩
    . left
      simp_all [View.put, View.taken]
  | @detach _ _ _ _ node =>
    refine .inl ⟨?_, rfl⟩
    simp only [View.detach] at hheld
    split at hheld
    next hmem => obtain hmem | hmem := (hlists.mem_fifo node r).mp hmem <;> simp [hmem]
    next => exact hheld
  | @takeDetached r' _ _ _ _ rest hhand hdetached =>
    have hmem : v.place r' = .detached := (hlists.mem_detached r').mp (by simp [hdetached])
    refine .inl ⟨?_, rfl⟩
    rintro heq
    by_cases hr : r = r' <;> simp_all [View.put]
  | linkFirst hplace | link hplace | promote _ hplace | popPromoted hplace | popCanceled _ hplace
  | unlink _ hplace =>
    refine .inl ⟨?_, rfl⟩
    intro heq
    simp only [View.setFifo, hput] at hheld
    split at hheld
    next hr => simp [← hr, heq] at hplace
    next => exact hheld heq
  | setResult hplace =>
    refine .inl ⟨?_, rfl⟩
    intro heq
    rw [hput] at hheld
    split at hheld
    next hr => simp [← hr, heq, Place.ending?] at hplace
    next => exact hheld heq
  | loadDropped hplace | claimPending hplace | claimActive hplace | claimDoomed hplace
  | claimTeardown hplace | claimFailed hplace | clearJoining hplace | activate hplace
  | release _ hplace | hold hplace | unhold hplace | publish hplace | send hplace | finish hplace
  | stage _ hplace =>
    refine .inl ⟨?_, rfl⟩
    intro heq
    rw [hput] at hheld
    split at hheld
    next hr => simp [← hr, heq] at hplace
    next => exact hheld heq
  | _ => exact .inl ⟨hheld, rfl⟩

end LelyRtt
