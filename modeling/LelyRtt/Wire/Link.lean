import LelyRtt.Conc.Channel
import LelyRtt.Wire.Csdo
import LelyRtt.Wire.Ssdo

/-!
This module contains an SDO channel: a client, a server and the frames between them, which the bus
may lose or deliver twice.
-/

namespace LelyRtt.Wire

open Conc (Faulty)

/-- What happens on a channel, as the applications of both sides see it. -/
inductive Event where
  | dnReq (idx : UInt16) (subidx : UInt8) (bytes : List UInt8)
  | upReq (idx : UInt16) (subidx : UInt8)
  | dnCon (idx : UInt16) (subidx : UInt8) (ac : BitVec 32)
  | upCon (idx : UInt16) (subidx : UInt8) (ac : BitVec 32) (bytes : List UInt8)
  | wrote (idx : UInt16) (subidx : UInt8) (bytes : List UInt8)
  | read (idx : UInt16) (subidx : UInt8) (bytes : List UInt8)
  deriving DecidableEq, Repr

namespace COut

def frame : COut → Option Msg
  | .send msg => some msg
  | _ => none

def event : COut → Option Event
  | .send _ => none
  | .dnCon idx subidx ac => some (.dnCon idx subidx ac)
  | .upCon idx subidx ac bytes => some (.upCon idx subidx ac bytes)

@[simp] theorem frame_send (msg : Msg) : (send msg).frame = some msg := rfl

@[simp] theorem event_send (msg : Msg) : (send msg).event = none := rfl

end COut

namespace SOut

def frame : SOut → Option Msg
  | .send msg => some msg
  | _ => none

def event : SOut → Option Event
  | .send _ => none
  | .wrote idx subidx bytes => some (.wrote idx subidx bytes)
  | .read idx subidx bytes => some (.read idx subidx bytes)

@[simp] theorem frame_send (msg : Msg) : (send msg).frame = some msg := rfl

@[simp] theorem frame_wrote (i : UInt16) (sub : UInt8) (bytes : List UInt8)
    : (wrote i sub bytes).frame = none := rfl

@[simp] theorem frame_read (i : UInt16) (sub : UInt8) (bytes : List UInt8)
    : (read i sub bytes).frame = none := rfl

@[simp] theorem event_send (msg : Msg) : (send msg).event = none := rfl

@[simp] theorem event_wrote (i : UInt16) (sub : UInt8) (bytes : List UInt8)
    : (wrote i sub bytes).event = some (.wrote i sub bytes) := rfl

@[simp] theorem event_read (i : UInt16) (sub : UInt8) (bytes : List UInt8)
    : (read i sub bytes).event = some (.read i sub bytes) := rfl

end SOut

/-- A channel. The events are in the order from the last to the first. -/
structure Link where
  client : Csdo
  server : Ssdo
  toServer : List Msg
  toClient : List Msg
  log : List Event

namespace Link

/-- Both services started, nothing sent. -/
def init : Link := ⟨Csdo.init.start, Ssdo.init.start, [], [], []⟩

/-- What the client did takes effect. -/
def clientDid (link : Link) (r : Csdo × List COut) : Link :=
  { link with
    client := r.1
    toServer := link.toServer ++ r.2.filterMap COut.frame
    log := (r.2.filterMap COut.event).reverse ++ link.log }

/-- What the server did takes effect. -/
def serverDid (link : Link) (r : Ssdo × List SOut) : Link :=
  { link with
    server := r.1
    toClient := link.toClient ++ r.2.filterMap SOut.frame
    log := (r.2.filterMap SOut.event).reverse ++ link.log }

/-- No frame is on its way. -/
def Quiet (link : Link) : Prop := link.toServer = [] ∧ link.toClient = []

/--
The steps of a channel. A request is made on a channel that is quiet: with frames of an earlier
transfer on their way no client could tell them from those of its own. Everything else may happen at
any time, but for an abort with code 0, which its confirmation would show as a success, and a request
that a confirmation callback makes while `co_csdo_stop` still runs.
-/
inductive Step : Link → Link → Prop
  | dnReq {link : Link} {r : Csdo × List COut} (idx : UInt16) (subidx : UInt8) (bytes : List UInt8)
    (hquiet : link.Quiet) (hsize : bytes.length < 2 ^ 32)
    (hreq : link.client.dnReq idx subidx bytes = some r) :
    Step link ({ link with log := .dnReq idx subidx bytes :: link.log }.clientDid r)
  | upReq {link : Link} {r : Csdo × List COut} (idx : UInt16) (subidx : UInt8)
    (hquiet : link.Quiet) (hreq : link.client.upReq idx subidx = some r) :
    Step link ({ link with log := .upReq idx subidx :: link.log }.clientDid r)
  | clientRecv {link : Link} {msg : Msg} {rest : List Msg} (mem : Mem)
    (hmsg : link.toClient = msg :: rest) :
    Step link ({ link with toClient := rest }.clientDid (link.client.emitRecv mem msg))
  | clientTimer {link : Link} (htimer : link.client.timer = true) :
    Step link (link.clientDid link.client.onTimer)
  | clientAbort {link : Link} (ac : BitVec 32) (hac : ac ≠ 0) :
    Step link (link.clientDid (link.client.abortReq ac))
  | clientTimeout {link : Link} (timeout : Nat) :
    Step link { link with client := link.client.setTimeout timeout }
  | clientStop {link : Link} : Step link (link.clientDid link.client.stop)
  | clientStart {link : Link} : Step link { link with client := link.client.start }
  | serverRecv {link : Link} {msg : Msg} {rest : List Msg} (dev : Dev)
    (hmsg : link.toServer = msg :: rest) :
    Step link ({ link with toServer := rest }.serverDid (link.server.emitRecv dev msg))
  | serverTimer {link : Link} (htimer : link.server.timer = true) :
    Step link (link.serverDid link.server.onTimer)
  | serverTimeout {link : Link} (timeout : Nat) :
    Step link { link with server := link.server.setTimeout timeout }
  | serverStop {link : Link} : Step link (link.serverDid link.server.stop)
  | serverStart {link : Link} : Step link { link with server := link.server.start }
  | faultToServer {link : Link} {q : List Msg} (hq : Faulty link.toServer q) :
    Step link { link with toServer := q }
  | faultToClient {link : Link} {q : List Msg} (hq : Faulty link.toClient q) :
    Step link { link with toClient := q }

/-- The runs of a channel. -/
inductive Reaches : Link → Prop
  | init : Reaches init
  | step {link link' : Link} (h : Reaches link) (hstep : Step link link') : Reaches link'

end Link

/-! ### The transfer that an event belongs to -/

def Event.isReq : Event → Bool
  | .dnReq _ _ _ => true
  | .upReq _ _ => true
  | _ => false

/-- The last request in a log. -/
def lastReq (log : List Event) : Option Event := log.find? Event.isReq

/-- What has happened since the last request in a log. -/
def sinceReq (log : List Event) : List Event := log.takeWhile fun e => !e.isReq

@[simp] theorem lastReq_cons_req {e : Event} {log : List Event} (h : e.isReq = true)
    : lastReq (e :: log) = some e := by
  simp [lastReq, h]

@[simp] theorem lastReq_cons {e : Event} {log : List Event} (h : e.isReq = false)
    : lastReq (e :: log) = lastReq log := by
  simp [lastReq, h]

@[simp] theorem sinceReq_cons_req {e : Event} {log : List Event} (h : e.isReq = true)
    : sinceReq (e :: log) = [] := by
  simp [sinceReq, h]

@[simp] theorem sinceReq_cons {e : Event} {log : List Event} (h : e.isReq = false)
    : sinceReq (e :: log) = e :: sinceReq log := by
  simp [sinceReq, h]

/-- What the server does to the object dictionary. -/
def Event.ofServer : Event → Bool
  | .wrote _ _ _ => true
  | .read _ _ _ => true
  | _ => false

def Event.isCon : Event → Bool
  | .dnCon _ _ _ => true
  | .upCon _ _ _ _ => true
  | _ => false

/-- The last request has not been confirmed yet. -/
def Unconfirmed (log : List Event) : Prop := ∀ e ∈ sinceReq log, e.isCon = false

/--
What an event says about the transfer that it is part of, `log` being what has happened before: what
is written are the bytes of the last request, a download that is confirmed has been written, an
upload that is confirmed has been read, and a request is confirmed once.
-/
def Justified (log : List Event) : Event → Prop
  | .wrote i sub bytes => lastReq log = some (.dnReq i sub bytes)
  | .read i sub _ => lastReq log = some (.upReq i sub)
  | .dnCon i sub ac => Unconfirmed log ∧ ∃ bytes, lastReq log = some (.dnReq i sub bytes)
      ∧ (ac = 0 → .wrote i sub bytes ∈ sinceReq log)
  | .upCon i sub ac bytes => Unconfirmed log ∧ lastReq log = some (.upReq i sub)
      ∧ (ac = 0 → .read i sub bytes ∈ sinceReq log)
  | .dnReq _ _ _ | .upReq _ _ => True

/-- Every event of a log is justified by those before it. -/
def Sound : List Event → Prop
  | [] => True
  | e :: log => Sound log ∧ Justified log e

variable {e e' : Event} {log evs : List Event}

theorem Event.ofServer_isReq (h : e.ofServer = true) : e.isReq = false := by
  cases e <;> first | rfl | cases h

theorem Event.ofServer_isCon (h : e.ofServer = true) : e.isCon = false := by
  cases e <;> first | rfl | cases h

theorem Event.isCon_isReq (h : e.isCon = true) : e.isReq = false := by
  cases e <;> first | rfl | cases h

theorem SOut.event_ofServer {out : List SOut} (h : e ∈ out.filterMap SOut.event)
    : e.ofServer = true := by
  obtain ⟨o, -, ho⟩ := List.mem_filterMap.1 h
  cases o <;> cases ho <;> rfl

theorem Unconfirmed.cons (h : Unconfirmed log) (hreq : e.isReq = false) (hcon : e.isCon = false)
    : Unconfirmed (e :: log) := by
  intro e' he'
  rw [sinceReq_cons hreq] at he'
  rcases List.mem_cons.1 he' with rfl | he'
  . exact hcon
  . exact h e' he'

theorem unconfirmed_request (h : e.isReq = true) : Unconfirmed (e :: log) := by
  intro e' he'
  rw [sinceReq_cons_req h] at he'
  cases he'

theorem Sound.suffix {pre : List Event} (h : Sound (pre ++ log)) : Sound log := by
  induction pre with
  | nil => exact h
  | cons e pre ih => exact ih h.1

/-- What the server does is justified by the last request alone. -/
theorem Justified.cons (h : Justified log e) (he : e.ofServer = true) (he' : e'.isReq = false)
    : Justified (e' :: log) e := by
  cases e with
  | wrote | read => exact (lastReq_cons he').trans h
  | dnReq | upReq | dnCon | upCon => cases he

/-- What holds of a log and is kept by every event but a request is kept by a list of them. -/
theorem log_keeps {P : List Event → Prop} (hkeeps : ∀ e log, e.isReq = false → P log → P (e :: log))
    (hevs : ∀ e ∈ evs, e.isReq = false) (h : P log) : P (evs.reverse ++ log) := by
  induction evs generalizing log with
  | nil => exact h
  | cons e evs ih =>
    rw [List.reverse_cons, List.append_assoc, List.singleton_append]
    exact ih (fun e' he' => hevs e' (List.mem_cons_of_mem _ he'))
      (hkeeps e log (hevs e List.mem_cons_self) h)

theorem lastReq_reverse_append (hevs : ∀ e ∈ evs, e.isReq = false)
    : lastReq (evs.reverse ++ log) = lastReq log :=
  @log_keeps log evs (fun l => lastReq l = lastReq log)
    (fun _ _ he h => (lastReq_cons he).trans h) hevs rfl

theorem Sound.served (h : Sound log) (hserver : ∀ e ∈ evs, e.ofServer = true)
    (hevs : ∀ e ∈ evs, Justified log e) : Sound (evs.reverse ++ log) := by
  induction evs generalizing log with
  | nil => exact h
  | cons e evs ih =>
    rw [List.reverse_cons, List.append_assoc, List.singleton_append]
    refine ih ⟨h, hevs e List.mem_cons_self⟩ (fun e' he' => hserver e' (List.mem_cons_of_mem _ he')) ?_
    intro e' he'
    exact (hevs e' (List.mem_cons_of_mem _ he')).cons (hserver e' (List.mem_cons_of_mem _ he'))
      (Event.ofServer_isReq (hserver e List.mem_cons_self))

theorem Unconfirmed.served (h : Unconfirmed log) (hserver : ∀ e ∈ evs, e.ofServer = true)
    : Unconfirmed (evs.reverse ++ log) := by
  induction evs generalizing log with
  | nil => exact h
  | cons e evs ih =>
    have he := hserver e List.mem_cons_self
    rw [List.reverse_cons, List.append_assoc, List.singleton_append]
    exact ih (h.cons (Event.ofServer_isReq he) (Event.ofServer_isCon he))
      fun e' he' => hserver e' (List.mem_cons_of_mem _ he')

end LelyRtt.Wire
