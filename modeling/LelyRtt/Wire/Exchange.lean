import LelyRtt.Wire.Link

/-!
This module contains what the download and the upload of a value have in common: an exchange of
numbered requests and answers in lock-step, in which client and server keep up with each other
whatever the bus loses or delivers twice.
-/

namespace LelyRtt.Wire

open Conc (Faulty Lockstep)

/--
A kind of transfer: the event it starts with, its requests and answers by their numbers, what a client
is like that waits for answer `k`, and a server that has answered request `k`. An upload is one of a
value that is not known before the server has accepted request 1.
-/
structure Exchange where
  request : Option Event
  req : Nat → Msg → Prop
  ans : List UInt8 → List Event → Nat → Msg → Prop
  active : List UInt8 → List Event → Nat → Csdo → Prop
  session : List UInt8 → List Event → Nat → Ssdo → Prop

namespace Exchange

/-- The server accepts request `k`, or aborts, or never comes back from it. -/
structure Takes (X : Exchange) (log : List Event) (v : List UInt8) (k : Nat)
    (r : Ssdo × List SOut) : Prop where
  events : ∀ e ∈ r.2.filterMap SOut.event, Justified log e
  ends : (r.1.Rests ∧ ∀ f ∈ r.2.filterMap SOut.frame, IsAbort f)
    ∨ ((r.1.Idle ∨ X.session v ((r.2.filterMap SOut.event).reverse ++ log) k r.1)
      ∧ ∃ y, r.2.filterMap SOut.frame = [y]
        ∧ X.ans v ((r.2.filterMap SOut.event).reverse ++ log) k y)

/-- The client has ended the transfer with a call of its confirmation function. -/
def Confirms (log : List Event) (r : Csdo × List COut) : Prop :=
  r.1.Over ∧ (∀ f ∈ r.2.filterMap COut.frame, IsAbort f)
    ∧ ∃ e, r.2.filterMap COut.event = [e] ∧ e.isReq = false ∧ Justified log e

/-- What a client and a server do in such a transfer. -/
structure Rules (X : Exchange) : Prop where
  ans_mono : ∀ {v log e k x}, e.isReq = false → X.ans v log k x → X.ans v (e :: log) k x
  active_mono : ∀ {v log e k c}, e.isReq = false → X.active v log k c → X.active v (e :: log) k c
  session_mono : ∀ {v log e k s}, e.isReq = false → X.session v log k s → X.session v (e :: log) k s
  ans_zero : ∀ {v v' log x}, X.ans v log 0 x → X.ans v' log 0 x
  active_early : ∀ {v v' log k c}, k ≤ 1 → X.active v log k c → X.active v' log k c
  active_busy : ∀ {v log k c}, X.active v log k c → c.Busy
  active_timeout : ∀ {v log k c t}, X.active v log k c → X.active v log k (c.setTimeout t)
  active_confirm : ∀ {v log k c ac}, X.active v log k c → lastReq log = X.request → Unconfirmed log →
    ac ≠ 0 → ∃ o e, c.confirm ac = [o] ∧ o.frame = none ∧ o.event = some e ∧ e.isReq = false
      ∧ Justified log e
  session_segment : ∀ {v log k s}, X.session v log k s → s.Segment
  session_timeout : ∀ {v log k s t}, X.session v log k s → X.session v log k (s.setTimeout t)
  req_first : ∀ {x}, X.req 0 x → 1 ≤ x.length ∧ (x.cs &&& csMask = 0x20 ∨ x.cs &&& csMask = 0x40)
  req_later : ∀ {k x}, X.req (k + 1) x →
    1 ≤ x.length ∧ (x.cs &&& csMask = 0x00 ∨ x.cs &&& csMask = 0x60)
  client_recv : ∀ {v log sent k c x} (mem : Mem), lastReq log = X.request → Unconfirmed log →
    X.active v log sent c → X.ans v log k x → sent - 1 ≤ k → k ≤ sent →
    c.Quits (c.emitRecv mem x) ∨ Confirms log (c.emitRecv mem x)
      ∨ ((c.emitRecv mem x).1.state = .reserving ∧ (c.emitRecv mem x).2 = [])
      ∨ (X.active v log sent (c.emitRecv mem x).1 ∧ (c.emitRecv mem x).2 = [])
      ∨ (k = sent ∧ X.active v log (sent + 1) (c.emitRecv mem x).1
        ∧ ∃ y, (c.emitRecv mem x).2 = [.send y] ∧ X.req (sent + 1) y)
  server_first : ∀ {log x} {s : Ssdo} (dev : Dev), lastReq log = X.request → s.Idle → s.state = .wait →
    X.req 0 x → ∃ v, X.Takes log v 0 (s.emitRecv dev x)
  server_next : ∀ {v log k x} {s : Ssdo} (dev : Dev), lastReq log = X.request → X.session v log k s →
    X.req (k + 1) x → X.Takes log v (k + 1) (s.emitRecv dev x)
  server_again : ∀ {v log k x} {s : Ssdo} (dev : Dev), X.session v log k s → X.req k x →
    (X.session v log k (s.emitRecv dev x).1 ∧ (s.emitRecv dev x).2 = [])
      ∨ ∃ ac, s.emitRecv dev x = s.abortRes ac

/--
Where a channel is in a transfer: the last request of the client is number `sent`, the last one that
the server has accepted number `taken`. As long as the server has not seen the first request it may
still be in the middle of an earlier transfer.
-/
structure Held (X : Exchange) (v : List UInt8) (sent taken : Nat) (link : Link) : Prop where
  request : lastReq link.log = X.request
  sound : Sound link.log
  queues : Lockstep X.req (X.ans v link.log) IsAbort sent taken link.toServer link.toClient
  client : (X.active v link.log sent link.client ∧ Unconfirmed link.log) ∨ link.client.Rests
  server : link.server.Rests ∨ X.session v link.log taken link.server
    ∨ (sent = 0 ∧ link.toClient = [] ∧ link.server.Segment)

end Exchange

namespace Exchange.Held

variable {X : Exchange} {v : List UInt8} {sent taken : Nat} {link : Link} {msg : Msg}
  {rest q : List Msg}

theorem server_state (hX : X.Rules) (h : X.Held v sent taken link)
    : link.server.Rests ∨ link.server.Segment := by
  rcases h.server with h | h | h
  . exact .inl h
  . exact .inr (hX.session_segment h)
  . exact .inr h.2.2

theorem client_state (hX : X.Rules) (h : X.Held v sent taken link)
    : link.client.Busy ∨ link.client.Rests := by
  rcases h.client with h | h
  . exact .inl (hX.active_busy h.1)
  . exact .inr h

/-! ### The client -/

/-- The client is through with the transfer, or was before. -/
theorem settles (hX : X.Rules) (h : X.Held v sent taken link) {r : Csdo × List COut}
    (hrests : r.1.Rests) (hframes : ∀ f ∈ r.2.filterMap COut.frame, IsAbort f)
    (hevents : r.2.filterMap COut.event = []
      ∨ ∃ e, r.2.filterMap COut.event = [e] ∧ e.isReq = false ∧ Justified link.log e)
    : X.Held v sent taken (link.clientDid r) := by
  rcases hevents with hevents | ⟨e, hevents, hreq, hjust⟩
  . have hlog : (link.clientDid r).log = link.log := by simp [Link.clientDid, hevents]
    constructor
    . rw [hlog]
      exact h.request
    . rw [hlog]
      exact h.sound
    . rw [hlog]
      exact h.queues.others_toServer hframes
    . exact .inr hrests
    . rw [hlog]
      exact h.server
  . have hlog : (link.clientDid r).log = e :: link.log := by simp [Link.clientDid, hevents]
    constructor
    . rw [hlog, lastReq_cons hreq]
      exact h.request
    . rw [hlog]
      exact ⟨h.sound, hjust⟩
    . rw [hlog]
      exact (h.queues.others_toServer hframes).mono_ans fun k x _ hx => hX.ans_mono hreq hx
    . exact .inr hrests
    . rw [hlog]
      exact h.server.imp_right fun hs => hs.imp_left (hX.session_mono hreq)

theorem quits (hX : X.Rules) (h : X.Held v sent taken link) {r : Csdo × List COut} (hr : link.client.Quits r)
    (hactive : X.active v link.log sent link.client) (hopen : Unconfirmed link.log)
    : X.Held v sent taken (link.clientDid r) := by
  obtain ⟨ac, hac, hover, out, hout, hr⟩ := hr
  obtain ⟨o, e, hconfirm, hframe, hevent, hreq, hjust⟩ :=
    hX.active_confirm hactive h.request hopen hac
  rw [hconfirm] at hr
  refine h.settles hX (.inl hover) ?_ (.inr ⟨e, ?_, hreq, hjust⟩)
  . intro f hf
    rcases hout with rfl | rfl
    . simp [hr, hframe] at hf
    . simp only [hr, List.singleton_append, List.filterMap_cons, hframe, List.filterMap_nil,
        Csdo.sendAbort, COut.frame_send, List.mem_singleton] at hf
      rw [hf]
      exact isAbort_iniFrame _ _ _
  . rcases hout with rfl | rfl
    . simp [hr, hevent]
    . simp [List.filterMap_cons, hr, hevent, Csdo.sendAbort]

/-- Abort requests and timeouts. -/
theorem abortReq (hX : X.Rules) (h : X.Held v sent taken link) {ac : BitVec 32} (hac : ac ≠ 0)
    : X.Held v sent taken (link.clientDid (link.client.abortReq ac)) := by
  rcases h.client with ⟨hactive, hopen⟩ | hrests
  . exact h.quits hX ((hX.active_busy hactive).abortReq hac) hactive hopen
  . rw [hrests.abortReq]
    exact h.settles hX hrests (by simp) (.inl rfl)

theorem clientTimer (hX : X.Rules) (h : X.Held v sent taken link)
    : X.Held v sent taken (link.clientDid link.client.onTimer) := by
  rcases h.client with ⟨hactive, hopen⟩ | hrests
  . exact h.quits hX (hX.active_busy hactive).onTimer hactive hopen
  . rw [hrests.onTimer]
    refine h.settles hX ?_ (by simp) (.inl rfl)
    exact hrests.imp_left fun hover => ⟨hover.state, hover.dnCon, hover.upCon⟩

theorem clientTimeout (hX : X.Rules) (h : X.Held v sent taken link) (timeout : Nat)
    : X.Held v sent taken { link with client := link.client.setTimeout timeout } where
  request := h.request
  sound := h.sound
  queues := h.queues
  client := h.client.imp (fun hc => ⟨hX.active_timeout hc.1, hc.2⟩) fun hc =>
    hc.imp_left fun hover => ⟨hover.state, hover.dnCon, hover.upCon⟩
  server := h.server

theorem clientStop (hX : X.Rules) (h : X.Held v sent taken link)
    : X.Held v sent taken (link.clientDid link.client.stop) := by
  rcases h.client_state hX with hbusy | hrests
  . have hac : acNoSdo ≠ 0 := by decide
    obtain ⟨-, -, hover, -⟩ := hbusy.abortReq hac
    have hstate : ¬ (link.client.state = .stopped ∨ link.client.state = .reserving) := by
      rintro (hs | hs) <;> rcases hbusy with hb | hb | hb | hb <;> rw [hs] at hb <;> cases hb
    rw [Csdo.stop, if_neg hstate]
    exact { h.abortReq hX hac with client := .inr (.inl ⟨.inr rfl, hover.dnCon, hover.upCon⟩) }
  . obtain ⟨hrests', hout⟩ := hrests.stop
    exact h.settles hX hrests' (by simp [hout]) (.inl (by rw [hout]; rfl))

theorem clientStart (hX : X.Rules) (h : X.Held v sent taken link)
    : X.Held v sent taken { link with client := link.client.start } := by
  refine { h with client := ?_ }
  rcases h.client with ⟨hactive, hopen⟩ | hrests
  . have hsame : link.client.start = link.client := by
      rw [Csdo.start, if_neg]
      intro hs
      rcases hX.active_busy hactive with hb | hb | hb | hb <;> rw [hs] at hb <;> cases hb
    rw [hsame]
    exact .inl ⟨hactive, hopen⟩
  . exact .inr hrests.start

theorem clientRecv (hX : X.Rules) (h : X.Held v sent taken link) (mem : Mem)
    (hmsg : link.toClient = msg :: rest)
    : ∃ sent', X.Held v sent' taken
      ({ link with toClient := rest }.clientDid (link.client.emitRecv mem msg)) := by
  have hserver : link.server.Rests ∨ X.session v link.log taken link.server :=
    h.server.imp_right fun hs => hs.resolve_right fun hs => by
      rw [hs.2.1] at hmsg
      cases hmsg
  have hqueues := h.queues
  rw [hmsg] at hqueues
  obtain ⟨hpopped, hmsg⟩ := hqueues.pop_toClient
  have hheld : X.Held v sent taken { link with toClient := rest } :=
    { h with queues := hpopped, server := hserver.imp_right .inl }
  rcases h.client with ⟨hactive, hopen⟩ | hrests
  . rcases hmsg with habort | ⟨k, hlo, hle, hans, hgoes⟩
    . exact ⟨sent, hheld.quits hX ((hX.active_busy hactive).recv_abort mem habort) hactive hopen⟩
    . obtain hquits | ⟨hover, hframes, e, he⟩ | ⟨hstate, hout⟩ | ⟨hactive', hout⟩
          | ⟨hk, hactive', y, hout, hy⟩ :=
        hX.client_recv mem h.request hopen hactive hans hlo (by have := h.queues.taken_le; omega)
      . exact ⟨sent, hheld.quits hX hquits hactive hopen⟩
      . exact ⟨sent, hheld.settles hX (.inl hover) hframes (.inr ⟨e, he⟩)⟩
      . exact ⟨sent, hheld.settles hX (.inr hstate) (by simp [hout]) (.inl (by rw [hout]; rfl))⟩
      . refine ⟨sent, ?_⟩
        simp only [Link.clientDid, hout, List.filterMap_nil, List.append_nil, List.reverse_nil,
          List.nil_append]
        exact { hheld with client := .inl ⟨hactive', hopen⟩ }
      . refine ⟨sent + 1, ?_⟩
        simp only [Link.clientDid, hout, List.filterMap_cons, List.filterMap_nil, COut.frame_send,
          COut.event_send, List.reverse_nil, List.nil_append]
        exact {
          request := h.request
          sound := h.sound
          queues := hgoes hk y hy
          client := .inl ⟨hactive', hopen⟩
          server := hserver.imp_right .inl }
  . obtain ⟨hrests', hout⟩ := hrests.recv mem msg
    refine ⟨sent, hheld.settles hX hrests' ?_ ?_⟩
    . rcases hout with hout | hout <;> rw [hout]
      . simp
      . simp only [List.filterMap_cons, List.filterMap_nil, Csdo.sendAbort, COut.frame_send,
          List.mem_singleton, forall_eq]
        exact isAbort_iniFrame _ _ _
    . rcases hout with hout | hout <;> rw [hout] <;> exact .inl rfl

/-! ### The server -/

/-- The server has given up what it was doing. -/
theorem serverQuits (h : X.Held v sent taken link) {r : Ssdo × List SOut}
    (hrests : r.1.Rests) (hframes : ∀ f ∈ r.2.filterMap SOut.frame, IsAbort f)
    (hevents : r.2.filterMap SOut.event = [])
    : X.Held v sent taken (link.serverDid r) := by
  have hlog : (link.serverDid r).log = link.log := by simp [Link.serverDid, hevents]
  constructor
  . rw [hlog]
    exact h.request
  . rw [hlog]
    exact h.sound
  . rw [hlog]
    exact h.queues.others_toClient hframes
  . rw [hlog]
    exact h.client
  . exact .inl hrests

theorem abortRes (h : X.Held v sent taken link) (ac : BitVec 32)
    : X.Held v sent taken (link.serverDid (link.server.abortRes ac)) := by
  refine h.serverQuits (.inl (Ssdo.abortInd_idle _)) ?_ rfl
  simp only [Ssdo.abortRes, Ssdo.sendAbort, List.filterMap_cons, List.filterMap_nil, SOut.frame_send,
    List.mem_singleton, forall_eq]
  exact isAbort_iniFrame _ _ _

theorem serverTimer (hX : X.Rules) (h : X.Held v sent taken link)
    : X.Held v sent taken (link.serverDid link.server.onTimer) := by
  rw [Ssdo.onTimer]
  rcases h.server_state hX with hrests | hseg
  . have hrests' : { link.server with timer := false }.Rests :=
      hrests.imp_left fun hidle => ⟨hidle.state, hidle.toggle, hidle.nbyte, hidle.buf⟩
    rw [Ssdo.emitAbort_rests hrests']
    exact h.serverQuits hrests' (by simp) rfl
  . have hseg' : { link.server with timer := false }.Segment := hseg
    rw [Ssdo.emitAbort_segment hseg']
    refine h.serverQuits (.inl (Ssdo.abortInd_idle _)) ?_ rfl
    simp only [Ssdo.abortRes, Ssdo.sendAbort, List.filterMap_cons, List.filterMap_nil, SOut.frame_send,
      List.mem_singleton, forall_eq]
    exact isAbort_iniFrame _ _ _

theorem serverTimeout (hX : X.Rules) (h : X.Held v sent taken link) (timeout : Nat)
    : X.Held v sent taken { link with server := link.server.setTimeout timeout } where
  request := h.request
  sound := h.sound
  queues := h.queues
  client := h.client
  server := h.server.imp
    (fun hs => hs.imp_left fun hidle => ⟨hidle.state, hidle.toggle, hidle.nbyte, hidle.buf⟩)
    fun hs => hs.imp_left hX.session_timeout

theorem serverStop (hX : X.Rules) (h : X.Held v sent taken link)
    : X.Held v sent taken (link.serverDid link.server.stop) := by
  rcases h.server_state hX with hrests | hseg
  . obtain ⟨hrests', hout⟩ := hrests.stop
    exact h.serverQuits hrests' (by simp [hout]) (by rw [hout]; rfl)
  . have hstate : ¬ (link.server.state = .stopped ∨ link.server.state = .reserving) := by
      rintro (hs | hs) <;> rcases hseg with hb | hb <;> rw [hs] at hb <;> cases hb
    rw [Ssdo.stop, if_neg hstate, Ssdo.emitAbort_segment hseg]
    have hheld := h.abortRes acNoSdo
    exact { hheld with server := .inl (.inl ⟨.inr rfl, rfl, rfl, rfl⟩) }

theorem serverStart (hX : X.Rules) (h : X.Held v sent taken link)
    : X.Held v sent taken { link with server := link.server.start } := by
  refine { h with server := ?_ }
  rcases h.server with hrests | hserver
  . exact .inl hrests.start
  . have hseg : link.server.Segment := by
      rcases hserver with hsession | hseg
      . exact hX.session_segment hsession
      . exact hseg.2.2
    have hsame : link.server.start = link.server := by
      rw [Ssdo.start, if_neg]
      intro hs
      rcases hseg with hb | hb <;> rw [hs] at hb <;> cases hb
    rw [hsame]
    exact .inr hserver

/-- The server accepts request `k`, the last one or one that it is sent again. -/
theorem takes (hX : X.Rules) {before : Nat} (h : X.Held v sent before link) {v' : List UInt8}
    {r : Ssdo × List SOut} (hv : v' = v ∨ (taken = 0 ∧ sent ≤ 1))
    (hqueues : Lockstep X.req (X.ans v link.log) IsAbort sent taken link.toServer link.toClient)
    (htakes : X.Takes link.log v' taken r) : X.Held v' sent taken (link.serverDid r) := by
  have hserver : ∀ e ∈ r.2.filterMap SOut.event, e.ofServer = true := fun e he =>
    SOut.event_ofServer he
  have hreq : ∀ e ∈ r.2.filterMap SOut.event, e.isReq = false := fun e he =>
    Event.ofServer_isReq (hserver e he)
  have hans : ∀ k x, k ≤ taken → X.ans v link.log k x →
      X.ans v' ((r.2.filterMap SOut.event).reverse ++ link.log) k x := by
    intro k x hk hx
    refine @log_keeps link.log (r.2.filterMap SOut.event) (fun l => X.ans v' l k x)
      (fun e l he => hX.ans_mono he) hreq ?_
    rcases hv with rfl | ⟨htaken, -⟩
    . exact hx
    . have hk0 : k = 0 := by omega
      subst hk0
      exact hX.ans_zero hx
  have hqueues := hqueues.mono_ans hans
  constructor
  . exact (lastReq_reverse_append hreq).trans h.request
  . exact h.sound.served hserver htakes.events
  . rcases htakes.ends with ⟨-, hframes⟩ | ⟨-, y, hframes, hy⟩
    . exact hqueues.others_toClient hframes
    . rw [Link.serverDid, hframes]
      exact hqueues.answer hy
  . rcases h.client with ⟨hactive, hopen⟩ | hrests
    . refine .inl ⟨?_, hopen.served hserver⟩
      refine @log_keeps link.log (r.2.filterMap SOut.event) (fun l => X.active v' l sent link.client)
        (fun e l he => hX.active_mono he) hreq ?_
      rcases hv with rfl | ⟨-, hsent⟩
      . exact hactive
      . exact hX.active_early hsent hactive
    . exact .inr hrests
  . rcases htakes.ends with ⟨hrests, -⟩ | ⟨hs, -⟩
    . exact .inl hrests
    . exact hs.imp .inl .inl

theorem serverRecv (hX : X.Rules) (h : X.Held v sent taken link) (dev : Dev)
    (hmsg : link.toServer = msg :: rest)
    : ∃ v' taken', X.Held v' sent taken'
      ({ link with toServer := rest }.serverDid (link.server.emitRecv dev msg)) := by
  have hqueues := h.queues
  rw [hmsg] at hqueues
  obtain ⟨hpopped, hmsg⟩ := hqueues.pop_toServer
  have hheld : X.Held v sent taken { link with toServer := rest } := { h with queues := hpopped }
  rcases hmsg with habort | ⟨k, hlo, hle, hreq, hgoes⟩
  . obtain ⟨hrests, hout⟩ := Ssdo.recv_abort (h.server_state hX) dev habort
    exact ⟨v, taken, hheld.serverQuits hrests (by simp [hout]) (by simp [hout])⟩
  . rcases h.server with (hidle | hs) | hsession | ⟨hsent, -, hseg⟩
    . rcases hidle.state with hs | hs
      . cases k with
        | zero =>
          obtain ⟨v', htakes⟩ := hX.server_first dev h.request hidle hs hreq
          have htaken : taken = 0 := by omega
          subst htaken
          exact ⟨v', 0, hheld.takes hX (.inr ⟨rfl, h.queues.sent_le⟩) hpopped htakes⟩
        | succ k =>
          obtain ⟨hlen, hcs⟩ := hX.req_later hreq
          rw [Ssdo.recv_noCs dev hlen (.inl ⟨hs, hcs⟩)]
          exact ⟨v, taken, hheld.abortRes acNoCs⟩
      . rw [Ssdo.emitRecv, hs]
        exact ⟨v, taken, hheld.serverQuits (.inl hidle) (by simp) rfl⟩
    . rw [Ssdo.emitRecv, hs]
      exact ⟨v, taken, hheld.serverQuits (.inr hs) (by simp) rfl⟩
    . have hsent := h.queues.sent_le
      obtain rfl | rfl : k = taken ∨ k = taken + 1 := by omega
      . rcases hX.server_again dev hsession hreq with ⟨hsession', hout⟩ | ⟨ac, hout⟩
        . refine ⟨v, k, ?_⟩
          simp only [Link.serverDid, hout, List.filterMap_nil, List.append_nil, List.reverse_nil,
            List.nil_append]
          exact { hheld with server := .inr (.inl hsession') }
        . rw [hout]
          exact ⟨v, k, hheld.abortRes ac⟩
      . have hk : taken + 1 = sent := by omega
        have htakes := hX.server_next dev h.request hsession hreq
        rw [hk] at htakes
        exact ⟨v, sent, hheld.takes hX (.inl rfl) (hgoes hk) htakes⟩
    . obtain ⟨hlen, hcs⟩ := hX.req_first (by
        have hk : k = 0 := by omega
        rwa [hk] at hreq)
      have hrecv : link.server.emitRecv dev msg = link.server.abortRes acNoCs := by
        rcases hseg with hs | hs
        . exact Ssdo.recv_noCs dev hlen (.inr (.inl ⟨hs, hcs⟩))
        . exact Ssdo.recv_noCs dev hlen (.inr (.inr ⟨hs, hcs⟩))
      rw [hrecv]
      exact ⟨v, taken, hheld.abortRes acNoCs⟩

end Exchange.Held

end LelyRtt.Wire
