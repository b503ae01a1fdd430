import LelyRtt.Protocol.Lists
import LelyRtt.Protocol.AppOk

/-!
This module contains the proof that the moves of the owner follow the protocol of each request.
-/

namespace LelyRtt

open Conc

variable {ι κ : Type}

namespace AppPc

/-- The owner may change a state that no thread has claimed. -/
theorem admits_owner {pc : AppPc} {st st' : ReqState} (h : pc.admits st) (hunsent : pc.unsent = false)
    (hst : st ≠ .new ∧ st ≠ .done ∧ st.pinned = false ∧ st.staged = false)
    (hst' : st' ≠ .new ∧ st' ≠ .cancelPending ∧ st'.pinned = false ∧ st'.staged = false)
    : pc.admits st' := by
  have hpinned (kind : PinKind) : st ≠ kind.pinned := by
    rintro rfl
    simp at hst
  have hstaged (kind : PinKind) : st ≠ kind.staged := by
    rintro rfl
    simp at hst
  cases pc <;> simp_all [admits, unsent]

theorem admits_staged {pc : AppPc} {kind : PinKind} (h : pc.admits kind.pinned) : pc.admits kind.staged := by
  have hnew : kind.pinned ≠ .new ∧ kind.pinned ≠ .done ∧ kind.pinned ≠ .queued := by
    cases kind <;> decide
  have hstaged (kind' : PinKind) : kind.pinned ≠ kind'.staged := by
    cases kind <;> cases kind' <;> decide
  cases pc <;> simp_all [admits]

end AppPc

variable {place place' : Place} {pc : AppPc} {request request' : Request ι}
  {hist hist' : List ReqEvent} {queued queued' started started' : Prop}

/-- A request that is about to be completed is held in a state that its kind of ending admits. -/
theorem Place.of_ending? {kind : Ending} {st : ReqState} (h : place.ending? = some kind)
    (hadmits : place.admits st)
    : place ≠ .away ∧ (∀ sent, place ≠ .published sent)
      ∧ (Place.ending kind true false).admits st := by
  cases place with
  | ending e written held =>
    cases written <;> cases held <;> cases e <;> cases kind <;> simp_all [ending?, admits]
  | _ => cases kind <;> simp_all [ending?, admits]

namespace ReqOk

theorem not_alone (h : ReqOk place pc request hist queued started) (hheld : place ≠ .away)
    : pc.alone = false ∧ pc.unsent = false ∧ pc.publishing = none := by
  have halone : pc.alone = false := by
    by_contra htrue
    exact hheld (h.alone_away (by simpa using htrue))
  refine ⟨halone, ?_⟩
  simp only [AppPc.alone, Bool.decide_or, Bool.or_eq_false_iff] at halone
  simp_all

/-- The owner moves a request that it holds and has not set `DONE`. -/
theorem held (h : ReqOk place pc request hist queued started) (hheld : place ≠ .away)
    (hpublished : ∀ sent, place ≠ .published sent) (hheld' : place' ≠ .away) (hadmits : place'.admits request'.state)
    (hpc : pc.admits request'.state)
    (hst : request'.state = request.state ∨ request.state ≠ .cancelPending)
    (hdone : request'.state ≠ .done) (hstaged : request'.state ≠ .pendingCancelDone)
    (hid : request'.nodeId = request.nodeId ∧ request'.requestId = request.requestId
      ∧ request'.runtime = request.runtime)
    (hnode : ∀ node, place'.node? = some node → request.nodeId = node)
    (hrefs : place'.holdsRefs → request'.completionRefs = 1)
    (hnext : ∀ node, place' = .joining node true → request'.next = none)
    (hcanceled : ∀ held, place' = .ending .pend true held → request'.Canceled)
    (hcompletion : completion hist' = completion hist)
    (hhist : ∀ e, e.completing = false → (e ∈ hist' ↔ e ∈ hist))
    (hqueued : queued' ↔ queued)
    (hstarted : started' → request'.state = .active ∨ request'.state = .activeCancelPinned)
    : ReqOk place' pc request' hist' queued' started' := by
  have hold : request.state ≠ .done := by
    intro hst
    obtain ⟨sent, heq⟩ := Place.published_of_admits (hst ▸ h.place_admits) hheld
    exact hpublished sent heq
  obtain ⟨halone, hunsent⟩ := h.not_alone hheld
  constructor
  case place_admits => exact hadmits
  case pc_admits => exact hpc
  case args_valid => exact h.args_valid
  case ctx_eq => simpa [hid] using h.ctx_eq
  case filled =>
    intro _
    rw [hid.1, hid.2.2]
    apply h.filled
    refine .inl ⟨?_, hold⟩
    intro hnew
    exact hheld (Place.away_of_admits h.place_admits (.inl hnew))
  case node_eq => simpa [hid] using hnode
  case refs_eq => exact hrefs
  case next_eq => exact hnext
  case alone_away => simp [halone]
  case queued_iff =>
    rw [hqueued, h.queued_iff]
    simp [hheld, hheld']
  case completion_fits =>
    have hfits := h.completion_fits
    simp only [Completion.Fits, hold, hdone, ↓reduceIte] at hfits ⊢
    rw [hcompletion, hfits]
  case posted =>
    intro hposted
    rw [hhist _ rfl] at hposted
    refine ⟨?_, hunsent.1⟩
    intro hnew
    exact hheld' (Place.away_of_admits hadmits (.inl hnew))
  case ending_canceled => exact hcanceled
  case staged_canceled =>
    intro hst
    exact absurd hst hstaged
  case publishing_canceled => simp [hunsent]
  case early =>
    intro hearly
    rw [canceledEarly, hhist _ rfl, hhist _ rfl] at hearly
    obtain ⟨hstate, _⟩ := h.early hearly
    simp only [hold, false_and, or_false] at hstate
    have hstate' : request'.state = .cancelPending := by
      obtain hst | hst := hst
      . rw [hst, hstate]
      . exact absurd hstate hst
    refine ⟨.inl hstate', ?_⟩
    intro hs
    simpa [hstate'] using hstarted hs
  case started_active =>
    intro hs
    obtain hst | hst := hstarted hs <;> simp [hst]

/-- The owner moves a request to another place and leaves its state as it is. -/
theorem moved (h : ReqOk place pc request hist queued started) (hheld : place ≠ .away)
    (hpublished : ∀ sent, place ≠ .published sent) (hheld' : place' ≠ .away)
    (hadmits : place'.admits request.state) (hst : request'.state = request.state)
    (hid : request'.nodeId = request.nodeId ∧ request'.requestId = request.requestId
      ∧ request'.runtime = request.runtime)
    (hnode : ∀ node, place'.node? = some node → place.node? = some node)
    (hrefs : place'.holdsRefs → request'.completionRefs = 1)
    (hnext : ∀ node, place' = .joining node true → request'.next = none)
    (hcanceled : ∀ held, place' = .ending .pend true held → request'.Canceled)
    (hcompletion : completion hist = .unset → completion hist' = .unset)
    (hhist : ∀ e, e.completing = false → (e ∈ hist' ↔ e ∈ hist))
    : ReqOk place' pc request' hist' queued started := by
  have hdone : request.state ≠ .done := by
    intro hst
    obtain ⟨sent, heq⟩ := Place.published_of_admits (hst ▸ h.place_admits) hheld
    exact hpublished sent heq
  have hstaged : request.state.staged = false := by
    by_contra hstaged
    exact hheld (Place.away_of_admits h.place_admits (.inr (by simpa using hstaged)))
  have hunset : completion hist = .unset := by
    simpa [Completion.Fits, hdone] using h.completion_fits
  apply h.held hheld hpublished hheld' (hst ▸ hadmits) (hst ▸ h.pc_admits) (.inl hst) (hst ▸ hdone)
  case hstaged =>
    intro heq
    simp [← hst, heq, ReqState.staged] at hstaged
  case hid => exact hid
  case hnode => exact fun node hn => h.node_eq node (hnode node hn)
  case hrefs => exact hrefs
  case hnext => exact hnext
  case hcanceled => exact hcanceled
  case hcompletion => rw [hcompletion hunset, hunset]
  case hhist => exact hhist
  case hqueued => rfl
  case hstarted =>
    intro hstarted
    rw [hst]
    have hactive := h.started_active hstarted
    cases hstate : request.state <;> simp_all [ReqState.staged]

/-- The owner changes a state that no canceling thread has claimed. -/
theorem claim {st : ReqState} (h : ReqOk place pc request hist queued started)
    (hheld : place ≠ .away) (hst : request.state = .queued ∨ request.state = .pending)
    (hst' : st = .pending ∨ st = .active ∨ st = .teardownPending) (hheld' : place' ≠ .away)
    (hadmits : place'.admits st) (hnode : ∀ node, place'.node? = some node → place.node? = some node)
    (hrefs : place'.holdsRefs = false) (hnext : ∀ node, place' ≠ .joining node true)
    (hcanceled : ∀ held, place' ≠ .ending .pend true held)
    : ReqOk place' pc { request with state := st } hist queued started := by
  have hpublished (sent : Bool) : place ≠ .published sent := by
    rintro rfl
    obtain hst | hst := hst <;> simpa [hst, Place.admits] using h.place_admits
  obtain ⟨_, hunsent, _⟩ := h.not_alone hheld
  apply h.held hheld hpublished hheld' hadmits
  case hpc =>
    apply AppPc.admits_owner h.pc_admits hunsent
    . obtain hst | hst := hst <;> simp [hst, ReqState.pinned, ReqState.staged]
    . obtain hst' | hst' | hst' := hst' <;> simp [hst', ReqState.pinned, ReqState.staged]
  case hst => obtain hst | hst := hst <;> simp [hst]
  case hdone => obtain hst' | hst' | hst' := hst' <;> simp [hst']
  case hstaged => obtain hst' | hst' | hst' := hst' <;> simp [hst']
  case hid => simp
  case hnode => exact fun node hn => h.node_eq node (hnode node hn)
  case hrefs => simp [hrefs]
  case hnext => exact fun node heq => absurd heq (hnext node)
  case hcanceled => exact fun held heq => absurd heq (hcanceled held)
  case hcompletion => rfl
  case hhist => simp
  case hqueued => rfl
  case hstarted =>
    intro hstarted
    have hactive := h.started_active hstarted
    obtain hst | hst := hst <;> simp [hst] at hactive

/-- The owner changes fields that the protocol does not depend on. -/
theorem touch (h : ReqOk place pc request hist queued started)
    (hst : request'.state = request.state)
    (hid : request'.nodeId = request.nodeId ∧ request'.requestId = request.requestId
      ∧ request'.runtime = request.runtime)
    (hrefs : request'.completionRefs = request.completionRefs)
    (hresult : request'.completionStatus = request.completionStatus
      ∧ request'.localError = request.localError ∧ request'.abortCode = request.abortCode)
    (hnext : ∀ node, place = .joining node true → request'.next = none)
    : ReqOk place pc request' hist queued started := by
  have hcanceled : request'.Canceled ↔ request.Canceled := by
    simp [Request.Canceled, hresult]
  exact
    {
      place_admits := by simpa only [hst] using h.place_admits
      pc_admits := by simpa only [hst] using h.pc_admits
      args_valid := h.args_valid
      ctx_eq := by simpa only [hid] using h.ctx_eq
      filled := by simpa only [hst, hid] using h.filled
      node_eq := by simpa only [hid] using h.node_eq
      refs_eq := by simpa only [hrefs] using h.refs_eq
      next_eq := hnext
      alone_away := h.alone_away
      queued_iff := by simpa only [hst] using h.queued_iff
      completion_fits := by simpa only [hst] using h.completion_fits
      posted := by simpa only [hst] using h.posted
      ending_canceled := by simpa only [hcanceled] using h.ending_canceled
      staged_canceled := by simpa only [hst, hcanceled] using h.staged_canceled
      publishing_canceled := by simpa only [hcanceled] using h.publishing_canceled
      early := by simpa only [hst, hcanceled] using h.early
      started_active := by simpa only [hst] using h.started_active
    }

theorem publish {kind : Ending} (h : ReqOk (.ending kind true true) pc request hist queued started)
    (hpinned : request.state.pinned = false)
    : ReqOk (.published false) pc { request with state := .done } (hist ++ [.setDone .owner])
        queued started := by
  have hplace := h.place_admits
  obtain ⟨halone, hunsent, hpub⟩ := h.not_alone (by simp)
  have hst : request.state ≠ .new ∧ request.state ≠ .done ∧ request.state.pinned = false
      ∧ request.state.staged = false := by
    cases kind <;> cases hst : request.state <;> simp_all [Place.admits, ReqState.staged]
  have hfits := h.completion_fits
  simp only [Completion.Fits, hst, ↓reduceIte] at hfits
  constructor
  case place_admits => rfl
  case pc_admits => exact AppPc.admits_owner h.pc_admits hunsent hst (by simp [ReqState.pinned, ReqState.staged])
  case args_valid => exact h.args_valid
  case ctx_eq => exact h.ctx_eq
  case filled => exact fun _ => h.filled (.inl ⟨hst.1, hst.2.1⟩)
  case node_eq => simp [Place.node?]
  case refs_eq => exact fun _ => h.refs_eq rfl
  case next_eq => simp
  case alone_away => simp [halone]
  case queued_iff => simpa using h.queued_iff
  case completion_fits => simp [Completion.Fits, hfits, Completion.next]
  case posted => simp [hunsent]
  case ending_canceled => simp
  case staged_canceled => simp
  case publishing_canceled => simp [hpub]
  case early =>
    intro hearly
    have hearly' : canceledEarly hist ∨ pc.admitted := by simpa [canceledEarly] using hearly
    obtain ⟨hstate, hstarted⟩ := h.early hearly'
    refine ⟨.inr ⟨rfl, ?_⟩, hstarted⟩
    obtain hstate | ⟨hstate, _⟩ := hstate
    . -- only requests of the FIFO class are in this state while they are completed
      cases kind <;> simp [hstate, Place.admits] at hplace
      exact h.ending_canceled true rfl
    . exact absurd hstate hst.2.1
  case started_active => simp

theorem send (h : ReqOk (.published false) pc request hist queued started)
    : ReqOk (.published true) pc { request with completion := true } (hist ++ [.sendDone .owner])
        queued started := by
  have hst : request.state = .done := by simpa [Place.admits] using h.place_admits
  have hfits := h.completion_fits
  simp only [Completion.Fits, hst, ↓reduceIte] at hfits
  constructor
  case place_admits => exact h.place_admits
  case pc_admits => exact h.pc_admits
  case args_valid => exact h.args_valid
  case ctx_eq => exact h.ctx_eq
  case filled => exact h.filled
  case node_eq => simp [Place.node?]
  case refs_eq => exact fun _ => h.refs_eq rfl
  case next_eq => simp
  case alone_away => simp [(h.not_alone (by simp)).1]
  case queued_iff => simpa using h.queued_iff
  case completion_fits => simp [Completion.Fits, hst, hfits, Completion.next]
  case posted => simpa using h.posted
  case ending_canceled => simp
  case staged_canceled => exact h.staged_canceled
  case publishing_canceled => exact h.publishing_canceled
  case early => simpa [canceledEarly, Request.Canceled] using h.early
  case started_active => exact h.started_active

theorem finish (h : ReqOk (.published true) pc request hist queued started)
    : ReqOk .away pc { request with completionRefs := 0 } (hist ++ [.clearRefs .owner])
        queued started := by
  have hst : request.state = .done := by simpa [Place.admits] using h.place_admits
  have hpub := (h.not_alone (by simp)).2.2
  have hfits := h.completion_fits
  simp only [Completion.Fits, hst, ↓reduceIte] at hfits
  constructor
  case place_admits => simp [hst, Place.admits, ReqState.terminal]
  case pc_admits => exact h.pc_admits
  case args_valid => exact h.args_valid
  case ctx_eq => exact h.ctx_eq
  case filled => exact h.filled
  case node_eq => simp [Place.node?]
  case refs_eq => simp [Place.holdsRefs]
  case next_eq => simp
  case alone_away => simp
  case queued_iff => simpa [hst] using h.queued_iff
  case completion_fits =>
    cases pc <;> simp_all [Completion.Fits, Completion.next, AppPc.publishing]
  case posted => simpa using h.posted
  case ending_canceled => simp
  case staged_canceled => exact h.staged_canceled
  case publishing_canceled => exact h.publishing_canceled
  case early => simpa [canceledEarly, Request.Canceled] using h.early
  case started_active => exact h.started_active

theorem stage {kind : Ending} {pin : PinKind}
    (h : ReqOk (.ending kind true false) pc request hist queued started)
    (hpinned : request.state = pin.pinned)
    : ReqOk .away pc { request with state := pin.staged } hist queued started := by
  have hplace := h.place_admits
  obtain ⟨halone, hunsent, hpub⟩ := h.not_alone (by simp)
  have hst : pin.staged ≠ .done ∧ pin.staged ≠ .queued ∧ pin.staged ≠ .cancelPending
      ∧ pin.staged ≠ .new := by
    cases pin <;> decide
  have hold : request.state ≠ .done ∧ request.state ≠ .cancelPending ∧ request.state ≠ .new := by
    rw [hpinned]
    cases pin <;> decide
  have hfits := h.completion_fits
  simp only [Completion.Fits, hold, ↓reduceIte] at hfits
  constructor
  case place_admits => simp [Place.admits, ReqState.terminal]
  case pc_admits => exact AppPc.admits_staged (hpinned ▸ h.pc_admits)
  case args_valid => exact h.args_valid
  case ctx_eq => exact h.ctx_eq
  case filled => exact fun _ => h.filled (.inl ⟨hold.2.2, hold.1⟩)
  case node_eq => simp [Place.node?]
  case refs_eq => simp [Place.holdsRefs]
  case next_eq => simp
  case alone_away => simp
  case queued_iff => simpa [hst] using h.queued_iff
  case completion_fits => simp [Completion.Fits, hst, hfits]
  case posted => simp [hst, hunsent]
  case ending_canceled => simp
  case staged_canceled =>
    intro hstaged
    -- a request that waits in the FIFO class was given the result of a cancel
    cases pin
    . cases kind <;> simp [hpinned, Place.admits, PinKind.pinned] at hplace
      exact h.ending_canceled false rfl
    . simp [PinKind.staged] at hstaged
  case publishing_canceled => simp [hpub]
  case early =>
    intro hearly
    obtain ⟨hstate, _⟩ := h.early hearly
    simp [hold] at hstate
  case started_active =>
    intro hstarted
    have hactive := h.started_active hstarted
    cases pin <;> simp_all [PinKind.pinned, PinKind.staged]

theorem start {node : Nat} (h : ReqOk place pc request hist queued started)
    (hplace : place = .active node) : ReqOk place pc request hist queued started' := by
  have hst := h.place_admits
  subst hplace
  simp only [Place.admits, Bool.decide_or, Bool.or_eq_true, decide_eq_true_eq] at hst
  refine { h with publishing_canceled := ?_, early := ?_, started_active := ?_ }
  . simp [(h.not_alone (by simp)).2.2]
  . intro hearly
    obtain ⟨hearly | ⟨hearly, _⟩, _⟩ := h.early hearly <;> simp [hearly] at hst
  . intro _
    obtain hst | hst := hst <;> simp [hst]

/-- The command of the request is taken out of the queue. -/
theorem take (h : ReqOk .away pc request hist queued started) (hqueued : queued)
    : ReqOk (.fresh request.nodeId) pc request hist False started := by
  obtain ⟨_, hst, hunsent⟩ := h.queued_iff.mp hqueued
  have hpc := h.pc_admits
  constructor
  case place_admits => simpa [Place.admits] using hst
  case pc_admits => exact h.pc_admits
  case args_valid => exact h.args_valid
  case ctx_eq => exact h.ctx_eq
  case filled => exact h.filled
  case node_eq => simp [Place.node?]
  case refs_eq => simp [Place.holdsRefs]
  case next_eq => simp
  case alone_away =>
    intro halone
    have hstaged (kind : PinKind) : kind.staged ≠ .queued ∧ kind.staged ≠ .cancelPending := by
      cases kind <;> decide
    cases pc <;> obtain hst | hst := hst
      <;> simp_all [AppPc.alone, AppPc.admits, AppPc.publishing, AppPc.unsent]
  case queued_iff => simp
  case completion_fits =>
    have hdone : request.state ≠ .done := by
      obtain hst | hst := hst <;> simp [hst]
    simpa [Completion.Fits, hdone] using h.completion_fits
  case posted => exact h.posted
  case ending_canceled => simp
  case staged_canceled => exact h.staged_canceled
  case publishing_canceled => exact h.publishing_canceled
  case early => exact h.early
  case started_active => exact h.started_active

end ReqOk

/-- All requests follow the protocol. -/
def Requests (own : Own ι κ) (sh : Shared ι κ) (v : View ι) : Prop :=
  ∀ r, ReqOk (v.place r) (sh.app r) (sh.heap r) (sh.hist r) (⟨.app r, .sdo r⟩ ∈ sh.queue)
    (r ∈ own.started)

namespace Requests

variable {own own' : Own ι κ} {sh sh' : Shared ι κ} {v v' : View ι} {r : ι}

/-- Nothing that the protocol of a request depends on changes. -/
theorem congr (h : Requests own sh v) (happ : sh'.app = sh.app) (hheap : sh'.heap = sh.heap)
    (hhist : sh'.hist = sh.hist) (hqueue : sh'.queue = sh.queue)
    (hstarted : own'.started = own.started) (hplace : v'.place = v.place)
    : Requests own' sh' v' := by
  intro r
  rw [happ, hheap, hhist, hqueue, hstarted, hplace]
  exact h r

/-- The commands that start requests were posted by their threads, once each. -/
structure Posted (sh : Shared ι κ) : Prop where
  tid_eq : ∀ entry ∈ sh.queue, ∀ r, entry.command = .sdo r → entry.tid = .app r
  nodup : (sh.queue.filterMap (·.command.sdo?)).Nodup

/-- A command that starts no request leaves the queue. -/
theorem receiveOther (h : Requests own sh v) {entry : Entry ι κ} {rest : List (Entry ι κ)}
    {taken : List (TakenBy × Entry ι κ)} (hqueue : sh.queue = entry :: rest)
    (hcommand : ∀ r, entry.command ≠ .sdo r) {phase : Phase} {settled : Nat → Settled}
    : Requests { own with taken := taken } { sh with commandMq := some rest }
        { v with phase := phase, settled := settled } := by
  intro r
  have hself := h r
  have hne : (⟨.app r, .sdo r⟩ : Entry ι κ) ≠ entry := by
    rintro rfl
    exact hcommand r rfl
  rw [hqueue, List.mem_cons, or_iff_right hne] at hself
  exact hself

variable [DecidableEq ι] {cfg : BuildConfig} {lim : Limits} {o : Op ι κ} {input : Input}
  {b : o.Res}

/-- One request changes. -/
theorem settle (h : Requests own sh v) {request : Request ι} {evs : List ReqEvent}
    (hstarted : ∀ r', r' ≠ r → (r' ∈ own'.started ↔ r' ∈ own.started))
    (hplace : ∀ r', r' ≠ r → v'.place r' = v.place r')
    (hself : ReqOk (v'.place r) (sh.app r) request (sh.hist r ++ evs)
      (⟨.app r, .sdo r⟩ ∈ sh.queue) (r ∈ own'.started))
    : Requests own' (sh.settle r (sh.app r) request evs) v' := by
  intro r'
  have hqueue : (sh.settle r (sh.app r) request evs).queue = sh.queue := rfl
  rw [hqueue]
  by_cases heq : r' = r
  . subst heq
    simpa [Shared.settle] using hself
  . rw [hstarted r' heq, hplace r' heq]
    simpa [Shared.settle, heq] using h r'

/-- One request changes together with its place. -/
theorem settle_put (h : Requests own sh v) {request : Request ι} {evs : List ReqEvent}
    {place : Place} (hself : ReqOk place (sh.app r) request (sh.hist r ++ evs)
      (⟨.app r, .sdo r⟩ ∈ sh.queue) (r ∈ own.started))
    : Requests own (sh.settle r (sh.app r) request evs) (v.put r place) := by
  apply h.settle (fun _ _ => Iff.rfl)
  . intro r' hne
    simp [View.put, hne]
  . simpa [View.put] using hself

/-- The owner moves a request and leaves all requests as they are. -/
theorem move (h : Requests own sh v) (r : ι) (place : Place)
    (hplace : v'.place = (v.put r place).place) (hstarted : own'.started = own.started)
    (hheld : v.place r ≠ .away) (hpublished : ∀ sent, v.place r ≠ .published sent)
    (hheld' : place ≠ .away) (hadmits : place.admits (sh.heap r).state)
    (hnode : ∀ node, place.node? = some node → (v.place r).node? = some node)
    (hrefs : place.holdsRefs = false)
    (hnext : ∀ node, place = .joining node true → (sh.heap r).next = none)
    (hcanceled : ∀ held, place ≠ .ending .pend true held) : Requests own' sh v' := by
  rw [Shared.settle_self sh r]
  apply h.settle
  . simp [hstarted]
  . intro r' hne
    simp [hplace, View.put, hne]
  . rw [List.append_nil, hstarted, hplace]
    simp only [View.put, Function.update_self]
    apply (h r).moved hheld hpublished hheld' hadmits rfl (by simp) hnode _ hnext _ id (by simp)
    . simp [hrefs]
    . exact fun held heq => absurd heq (hcanceled held)

/-- A request that is held and not completed changes neither its state nor its place. -/
theorem touch (h : Requests own sh v) {request : Request ι} {evs : List ReqEvent}
    (hself : ReqOk (v.place r) (sh.app r) request (sh.hist r ++ evs)
      (⟨.app r, .sdo r⟩ ∈ sh.queue) (r ∈ own.started))
    : Requests own (sh.settle r (sh.app r) request evs) v :=
  h.settle (fun _ _ => Iff.rfl) (fun _ _ => rfl) hself

theorem setNext (h : Requests own sh v) (r : ι) (next : Option ι)
    (hnext : ∀ node, v.place r = .joining node true → next = none)
    : Requests own (sh.modify r fun request => { request with next := next }) v := by
  rw [Shared.modify_eq]
  apply h.touch
  rw [List.append_nil]
  exact (h r).touch rfl (by simp) rfl (by simp) hnext

theorem receive (h : Requests own sh v) (hposted : Posted sh) {entry : Entry ι κ}
    {rest : List (Entry ι κ)} {taken : List (TakenBy × Entry ι κ)}
    (hqueue : sh.queue = entry :: rest) (hcommand : entry.command = .sdo r)
    {ident : ι → BitVec 32}
    : Requests { own with taken := taken } { sh with commandMq := some rest }
        { v.taken.put r (.fresh (sh.heap r).nodeId) with ident := ident } := by
  have hentry : entry = ⟨.app r, .sdo r⟩ := by
    have htid := hposted.tid_eq entry (by simp [hqueue]) r hcommand
    cases entry
    simp_all
  have hnotMem : (⟨.app r, .sdo r⟩ : Entry ι κ) ∉ rest := by
    have hnodup := hposted.nodup
    rw [hqueue, List.filterMap_cons, hcommand] at hnodup
    simp only [Command.sdo?, List.nodup_cons, List.mem_filterMap, not_exists, not_and] at hnodup
    intro hmem
    exact hnodup.1 _ hmem rfl
  intro r'
  have hself := h r'
  rw [hqueue, hentry, List.mem_cons] at hself
  by_cases heq : r' = r
  . subst heq
    have haway := (hself.queued_iff.mp (.inl rfl)).1
    rw [haway] at hself
    simpa [View.put, Shared.queue, hnotMem] using hself.take (.inl rfl)
  . have hne : (⟨.app r', .sdo r'⟩ : Entry ι κ) ≠ ⟨.app r, .sdo r⟩ := by simp [heq]
    rw [or_iff_right hne] at hself
    simpa [View.put, View.taken, Shared.queue, heq] using hself

theorem exec (h : Requests own sh v) (hexec : o.run input own sh = (b, own', sh'))
    (hghost : Ghost cfg lim o own sh b v v') (hlists : Lists cfg own sh v) (hposted : Posted sh)
    (hempty : v.phase.created = false ∨ v.phase.drained = true → sh.queue = [])
    : Requests own' sh' v' := by
  cases hghost with
  | look hlooks =>
    obtain ⟨rfl, rfl⟩ := run_looks hexec hlooks
    exact h
  | @loadDropped r _ _ _ node hplace =>
    obtain ⟨hst, rfl, rfl⟩ := run_loadState hexec
    apply h.move r (.ending .pend false false) rfl rfl
    all_goals simp [hplace, hst, Place.admits, Place.node?, Place.holdsRefs]
  | claimPending hplace | claimActive hplace | claimDoomed hplace | claimTeardown hplace =>
    obtain ⟨hst, rfl, rfl⟩ := run_casState_none hexec
    rw [if_neg (by decide), Shared.setState, Shared.modify_eq]
    apply h.settle_put
    rw [List.append_nil]
    apply (h _).claim _ (.inl hst)
    all_goals simp [hplace, Place.admits, Place.node?, Place.holdsRefs]
  | @claimFailed r _ _ _ _ _ node hplace =>
    obtain ⟨hne, _, rfl, rfl⟩ := run_casState_some hexec
    have hst : (sh.heap r).state = .cancelPending := by
      have hadmits := (h r).place_admits
      simpa [hplace, Place.admits, hne] using hadmits
    apply h.move r (.ending .pend false false) rfl (by split <;> rfl)
    all_goals simp [hplace, hst, Place.admits, Place.node?, Place.holdsRefs]
  | touchCancel _ | touchBuffer _ =>
    cases hexec
    rw [Shared.modify_eq]
    apply h.touch
    rw [List.append_nil]
    exact (h _).touch rfl (by simp) rfl (by simp) (h _).next_eq
  | clearNext =>
    cases hexec
    exact h.setNext _ none (by simp)
  | @clearJoining r _ _ _ _ node cleared hplace =>
    cases hexec
    have hadmits := (h r).place_admits
    have hset := h.setNext r none (fun _ _ => rfl)
    apply hset.move r (.joining node true) rfl rfl
    all_goals simp_all [Place.admits, Place.node?, Place.holdsRefs, Shared.modify_heap]
  | @linkFirst r _ _ _ _ node hplace =>
    cases hexec
    have hadmits := (h r).place_admits
    apply h.move r (.fifo node) rfl rfl
    all_goals simp_all [Place.admits, Place.node?, Place.holdsRefs]
  | @link r _ _ _ _ node _ tail hplace hfifo =>
    cases hexec
    have hadmits := (h r).place_admits
    have htail := (hlists.mem_fifo node tail).mp (by simp [hfifo])
    have hset := h.setNext tail (some r)
      (by obtain htail | htail := htail <;> simp [htail])
    apply hset.move r (.fifo node) rfl rfl
    all_goals simp_all [Place.admits, Place.node?, Place.holdsRefs]
  | @promote r _ _ _ node _ _ hplace =>
    obtain ⟨hst, rfl, rfl⟩ := run_casState_none hexec
    rw [if_neg (by decide), Shared.setState, Shared.modify_eq]
    suffices hput : Requests own' _ (v.put r (.promoted node)) from
      hput.congr rfl rfl rfl rfl rfl rfl
    apply h.settle_put
    rw [List.append_nil]
    apply (h _).claim _ (.inr hst)
    all_goals simp [hplace, Place.admits, Place.node?, Place.holdsRefs]
  | @promoteFailed r =>
    obtain ⟨_, _, rfl, rfl⟩ := run_casState_some hexec
    exact h.congr rfl rfl rfl rfl rfl rfl
  | loadSettled =>
    obtain ⟨_, rfl, rfl⟩ := run_loadState hexec
    exact h.congr rfl rfl rfl rfl rfl rfl
  | @popPromoted r _ _ _ _ node _ hplace =>
    cases hexec
    have hadmits := (h r).place_admits
    apply h.move r (.claimed node) rfl rfl
    all_goals simp_all [Place.admits, Place.node?, Place.holdsRefs]
  | @popCanceled r _ _ _ _ node _ _ hplace =>
    cases hexec
    have hadmits := (h r).place_admits
    apply h.move r (.ending .pend false false) rfl rfl
    all_goals simp_all [Place.admits, Place.node?, Place.holdsRefs]
  | @unlink r prev _ _ _ _ node _ rest _ hplace hfifo =>
    cases hexec
    have hadmits := (h r).place_admits
    have hprev := (hlists.mem_fifo node prev).mp (by simp [hfifo])
    have hset := h.setNext prev rest.head?
      (by obtain hprev | hprev := hprev <;> simp [hprev])
    apply hset.move r (.ending .pend false false) rfl rfl
    all_goals simp_all [Place.admits, Place.node?, Place.holdsRefs]
  | @detach _ _ _ _ node hrest =>
    cases hexec
    intro r
    by_cases hmem : r ∈ v.fifo node
    . have hplace := hlists.place_of_mem hrest.1 hmem
      have hadmits := (h r).place_admits
      simp only [View.detach, hmem, ↓reduceIte]
      apply (h r).moved (by simp [hplace]) _ _ _ rfl (by simp) _ _ _ _ id (by simp)
      all_goals simp_all [Place.admits, Place.node?, Place.holdsRefs]
    . simpa only [View.detach, hmem, ↓reduceIte] using h r
  | @takeDetached r _ _ _ _ _ _ hdetached =>
    cases hexec
    have hplace := (hlists.mem_detached r).mp (by simp [hdetached])
    have hadmits := (h r).place_admits
    have hset := h.setNext r none (fun _ _ => rfl)
    apply hset.move r (.ending .pend false false) rfl rfl
    all_goals simp_all [Place.admits, Place.node?, Place.holdsRefs]
  | @activate r _ _ _ _ node hplace =>
    cases hexec
    have hadmits := (h r).place_admits
    apply h.move r (.active node) rfl rfl
    all_goals simp_all [Place.admits, Place.node?, Place.holdsRefs]
  | @release r _ _ _ _ node _ hplace =>
    cases hexec
    have hadmits := (h r).place_admits
    apply h.move r (.ending .act false false) rfl rfl
    all_goals simp_all [Place.admits, Place.node?, Place.holdsRefs]
  | clearActive | setBusy | setCsdo | setMisc | pin | unpin | between | latch | quiesce
  | resetCallbacks | openCallbacks | closeCallbacks | receive | storeLocalNodeId | mark =>
    cases hexec
    exact h.congr rfl rfl rfl rfl rfl rfl
  | commandsIdle =>
    obtain ⟨_, rfl, rfl⟩ := run_loadCommandRefs hexec
    exact h.congr rfl rfl rfl rfl rfl rfl
  | cancelsIdle =>
    obtain ⟨_, rfl, rfl⟩ := run_loadCancelRefs hexec
    exact h.congr rfl rfl rfl rfl rfl rfl
  | noQueue =>
    obtain ⟨_, rfl, rfl⟩ := run_mqExists hexec
    exact h.congr rfl rfl rfl rfl rfl rfl
  | @start r _ _ _ _ node hplace =>
    cases hexec
    rw [Shared.settle_self sh r]
    apply h.settle
    . intro r' hne
      simp [hne]
    . simp
    . rw [List.append_nil]
      exact (h r).start hplace
  | @setResult r status err ac _ _ _ _ kind hending hresult =>
    cases hexec
    simp only [Shared.modify_eq, Shared.note_eq, Shared.settle_settle, Shared.settle_app_self,
      Shared.settle_heap_self]
    apply h.settle_put
    have hadmits := (h r).place_admits
    obtain ⟨hheld, hpublished, hadmits'⟩ := Place.of_ending? hending hadmits
    apply (h r).moved hheld hpublished (by simp) hadmits'
    case hst => rfl
    case hid => simp
    case hcanceled =>
      intro held heq
      simp only [Place.ending.injEq] at heq
      exact hresult heq.1
    case hhist =>
      intro e he
      have hne : e ≠ .result .owner := by
        rintro rfl
        simp [ReqEvent.completing] at he
      simp [hne]
    case hcompletion =>
      intro hunset
      simp [hunset, Completion.next]
    all_goals simp [Place.node?, Place.holdsRefs]
  | @hold r _ _ _ _ kind hplace =>
    cases hexec
    simp only [Shared.setCompletionRefs, Shared.modify_eq]
    apply h.settle_put
    have hself := h r
    rw [hplace] at hself
    rw [List.append_nil]
    apply hself.moved (by simp) (by simp) (by simp)
    case hadmits => cases kind <;> exact hself.place_admits
    case hst => rfl
    case hid => simp
    case hcanceled =>
      rintro held ⟨⟩
      exact hself.ending_canceled false rfl
    all_goals simp [Place.node?]
  | @unhold r _ _ _ _ kind hplace =>
    cases hexec
    simp only [↓reduceIte, Shared.setCompletionRefs, Shared.modify_eq, Shared.note_eq,
      Shared.settle_settle, Shared.settle_app_self, Shared.settle_heap_self]
    apply h.settle_put
    have hself := h r
    rw [hplace] at hself
    apply hself.moved (by simp) (by simp) (by simp)
    case hadmits => cases kind <;> exact hself.place_admits
    case hst => rfl
    case hid => simp
    case hcanceled =>
      rintro held ⟨⟩
      exact hself.ending_canceled true rfl
    case hhist =>
      intro e he
      have hne : e ≠ .clearRefs .owner := by
        rintro rfl
        simp [ReqEvent.completing] at he
      simp [hne]
    case hcompletion =>
      intro hunset
      simp [hunset, Completion.next]
    all_goals simp [Place.node?, Place.holdsRefs]
  | @publish r st _ _ _ kind hplace hpinned =>
    obtain ⟨hst, rfl, rfl⟩ := run_casState_none hexec
    simp only [↓reduceIte, Shared.setState, Shared.modify_eq, Shared.note_eq, Shared.settle_settle,
      Shared.settle_app_self, Shared.settle_heap_self]
    apply h.settle_put
    have hself := h r
    rw [hplace] at hself
    exact hself.publish (hst ▸ hpinned)
  | publishFailed =>
    obtain ⟨_, _, rfl, rfl⟩ := run_casState_some hexec
    exact h
  | stageFailed pin =>
    obtain ⟨_, _, rfl, rfl⟩ := run_casState_some hexec
    exact h.congr rfl rfl rfl rfl (by split <;> rfl) rfl
  | @send r _ _ _ _ hplace =>
    cases hexec
    simp only [Shared.sendCompletion, Shared.modify_eq, Shared.note_eq, Shared.settle_settle,
      Shared.settle_app_self, Shared.settle_heap_self]
    apply h.settle_put
    have hself := h r
    rw [hplace] at hself
    exact hself.send
  | @finish r _ _ _ _ hplace =>
    cases hexec
    simp only [↓reduceIte, Shared.setCompletionRefs, Shared.modify_eq, Shared.note_eq,
      Shared.settle_settle, Shared.settle_app_self, Shared.settle_heap_self]
    apply h.settle_put
    have hself := h r
    rw [hplace] at hself
    exact hself.finish
  | @stage r _ _ _ kind pin hplace =>
    obtain ⟨hst, rfl, rfl⟩ := run_casState_none hexec
    have hdone : pin.staged ≠ .done := by cases pin <;> decide
    rw [if_neg hdone, Shared.setState, Shared.modify_eq]
    have hself := h r
    rw [hplace] at hself
    suffices hput : Requests own _ (v.put r .away) from
      hput.congr rfl rfl rfl rfl (by split <;> rfl) rfl
    apply h.settle_put
    rw [List.append_nil]
    exact hself.stage hst
  | create hcreated =>
    cases hexec
    refine h.congr rfl rfl rfl ?_ rfl rfl
    rw [hempty (.inl hcreated)]
    rfl
  | emptyQueue | receiveNone =>
    obtain ⟨_, rfl, rfl⟩ := run_mqReceive_none hexec
    exact h.congr rfl rfl rfl rfl rfl rfl
  | @receiveSdo _ r =>
    obtain ⟨entry, rest, hqueue, hcommand, rfl, rfl⟩ := run_mqReceive_some hexec
    exact h.receive hposted hqueue hcommand
  | receiveCancel =>
    obtain ⟨entry, rest, hqueue, hcommand, rfl, rfl⟩ := run_mqReceive_some hexec
    exact h.receiveOther hqueue (by simp [hcommand])
  | receiveOther hother =>
    obtain ⟨entry, rest, hqueue, hcommand, rfl, rfl⟩ := run_mqReceive_some hexec
    exact h.receiveOther hqueue (hcommand ▸ hother)
  | delete hdrained =>
    cases hexec
    refine h.congr rfl rfl rfl ?_ rfl rfl
    rw [hempty (.inr hdrained)]
    rfl

end Requests

end LelyRtt
