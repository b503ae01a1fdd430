import LelyRtt.Wire.Complete
import Mathlib.Data.List.TakeWhile

/-!
This module contains the agreement of both sides of an SDO channel over all its runs: what the client
is told of a transfer is what the server has done, although the bus loses and repeats frames and both
sides may give up at any time.
-/

namespace LelyRtt.Wire

open Conc (Faulty Lockstep)

/-- Nothing has been requested yet. -/
def noExchange : Exchange where
  request := none
  req _ _ := False
  ans _ _ _ _ := False
  active _ _ _ _ := False
  session _ _ _ _ := False

theorem noExchange_rules : noExchange.Rules where
  ans_mono _ h := h
  active_mono _ h := h
  session_mono _ h := h
  ans_zero h := h
  active_early _ h := h
  active_busy h := h.elim
  active_timeout h := h
  active_confirm h := h.elim
  session_segment h := h.elim
  session_timeout h := h
  req_first h := h.elim
  req_later h := h.elim
  client_recv _ _ _ h := h.elim
  server_first _ _ _ _ h := h.elim
  server_next _ _ h := h.elim
  server_again _ h := h.elim

variable {link link' : Link} {X : Exchange} {v : List UInt8} {sent taken : Nat} {c : Csdo}
  {i : UInt16} {sub : UInt8} {bytes : List UInt8}

theorem held_init : noExchange.Held [] 0 0 Link.init where
  request := rfl
  sound := trivial
  queues := ⟨Nat.le_refl 0, Nat.zero_le 1, .nil 0, .nil _⟩
  client := .inr (.inl ⟨.inl rfl, rfl, rfl⟩)
  server := .inl (.inl ⟨.inl rfl, rfl, rfl, rfl⟩)

/-! ### Requests -/

namespace Exchange.Held

/-- A request on a quiet channel starts a new transfer, in whatever state the server is. -/
theorem request_step {Y : Exchange} {e : Event} {x : Msg} {r : Csdo × List COut} (hX : X.Rules)
    (h : X.Held v sent taken link) (hquiet : link.Quiet) (he : Y.request = some e)
    (hreq : e.isReq = true) (hjust : Justified link.log e) (hout : r.2 = [.send x]) (hx : Y.req 0 x)
    (hactive : Y.active [] (e :: link.log) 0 r.1)
    : Y.Held [] 0 0 ({ link with log := e :: link.log }.clientDid r) := by
  have hlog : ({ link with log := e :: link.log }.clientDid r).log = e :: link.log := by
    simp [Link.clientDid, hout]
  constructor
  . rw [hlog, lastReq_cons_req hreq, he]
  . rw [hlog]
    exact ⟨h.sound, hjust⟩
  . simp only [Link.clientDid, hout, hquiet.1, hquiet.2, List.filterMap_cons, List.filterMap_nil,
      COut.frame_send, List.nil_append]
    exact .start hx
  . rw [hlog]
    exact .inl ⟨hactive, unconfirmed_request hreq⟩
  . exact (h.server_state hX).imp_right fun hseg => .inr ⟨rfl, hquiet.2, hseg⟩

theorem faultToServer (h : X.Held v sent taken link) {q : List Msg} (hq : Faulty link.toServer q)
    : X.Held v sent taken { link with toServer := q } :=
  { h with queues := h.queues.faulty_toServer hq }

theorem faultToClient (h : X.Held v sent taken link) {q : List Msg} (hq : Faulty link.toClient q)
    : X.Held v sent taken { link with toClient := q } where
  request := h.request
  sound := h.sound
  queues := h.queues.faulty_toClient hq
  client := h.client
  server := h.server.imp_right fun hs => hs.imp_right fun ⟨_, hnil, _⟩ => by
    rw [hnil] at hq
    generalize hempty : ([] : List Msg) = q' at hq
    cases hq with
    | lose pre x post => cases pre <;> cases hempty
    | double pre x post => cases pre <;> cases hempty

end Exchange.Held

/-! ### Runs -/

/-- Every step of a channel leaves it in the transfer it is in, or starts another. -/
theorem held_step (hX : X.Rules) (h : X.Held v sent taken link) (hstep : Link.Step link link')
    : ∃ Y v' sent' taken', Exchange.Rules Y ∧ Y.Held v' sent' taken' link' := by
  cases hstep with
  | dnReq idx subidx bytes hquiet hsize hreq =>
    obtain ⟨hout, hactive⟩ := Csdo.dnReq_some hreq hsize
    exact ⟨download idx subidx bytes, [], 0, 0, download_rules hsize,
      h.request_step hX hquiet rfl rfl trivial hout rfl hactive⟩
  | upReq idx subidx hquiet hreq =>
    obtain ⟨hout, hactive⟩ := Csdo.upReq_some hreq
    exact ⟨upload idx subidx, [], 0, 0, upload_rules idx subidx,
      h.request_step hX hquiet rfl rfl trivial hout rfl hactive⟩
  | clientRecv mem hmsg =>
    obtain ⟨sent', hheld⟩ := h.clientRecv hX mem hmsg
    exact ⟨X, v, sent', taken, hX, hheld⟩
  | clientTimer => exact ⟨X, v, sent, taken, hX, h.clientTimer hX⟩
  | clientAbort ac hac => exact ⟨X, v, sent, taken, hX, h.abortReq hX hac⟩
  | clientTimeout timeout => exact ⟨X, v, sent, taken, hX, h.clientTimeout hX timeout⟩
  | clientStop => exact ⟨X, v, sent, taken, hX, h.clientStop hX⟩
  | clientStart => exact ⟨X, v, sent, taken, hX, h.clientStart hX⟩
  | serverRecv dev hmsg =>
    obtain ⟨v', taken', hheld⟩ := h.serverRecv hX dev hmsg
    exact ⟨X, v', sent, taken', hX, hheld⟩
  | serverTimer => exact ⟨X, v, sent, taken, hX, h.serverTimer hX⟩
  | serverTimeout timeout => exact ⟨X, v, sent, taken, hX, h.serverTimeout hX timeout⟩
  | serverStop => exact ⟨X, v, sent, taken, hX, h.serverStop hX⟩
  | serverStart => exact ⟨X, v, sent, taken, hX, h.serverStart hX⟩
  | faultToServer hq => exact ⟨X, v, sent, taken, hX, h.faultToServer hq⟩
  | faultToClient hq => exact ⟨X, v, sent, taken, hX, h.faultToClient hq⟩

theorem held_run (h : Link.Reaches link)
    : ∃ X v sent taken, Exchange.Rules X ∧ X.Held v sent taken link := by
  induction h with
  | init => exact ⟨noExchange, [], 0, 0, noExchange_rules, held_init⟩
  | step _ hstep ih =>
    obtain ⟨X, v, sent, taken, hX, hheld⟩ := ih
    exact held_step hX hheld hstep

/-- The log of a channel is sound in every state of every run. -/
theorem sound_run (h : Link.Reaches link) : Sound link.log := by
  obtain ⟨X, v, sent, taken, -, hheld⟩ := held_run h
  exact hheld.sound

/-! ### What the log tells -/

/-- A log up to its last request. -/
theorem lastReq_split {log : List Event} {e : Event} (h : lastReq log = some e)
    : ∃ earlier, log = sinceReq log ++ e :: earlier := by
  induction log with
  | nil => cases h
  | cons e' log ih =>
    by_cases hreq : e'.isReq = true
    . rw [lastReq_cons_req hreq] at h
      cases h
      exact ⟨log, by rw [sinceReq_cons_req hreq, List.nil_append]⟩
    . have hreq : e'.isReq = false := Bool.eq_false_iff.2 hreq
      rw [lastReq_cons hreq] at h
      obtain ⟨earlier, hlog⟩ := ih h
      refine ⟨earlier, ?_⟩
      rw [sinceReq_cons hreq, List.cons_append, ← hlog]

theorem sinceReq_isReq {log : List Event} {e : Event} (h : e ∈ sinceReq log) : e.isReq = false := by
  have hfalse := List.mem_takeWhile_imp h
  simpa using hfalse

/-- Every write of a transfer is of what was requested. -/
theorem wrote_since {log : List Event} (h : Sound log) {e : Event} (hreq : lastReq log = some e)
    {j : UInt16} {s : UInt8} {b : List UInt8} (hmem : .wrote j s b ∈ sinceReq log)
    : e = .dnReq j s b := by
  induction log with
  | nil => cases hmem
  | cons e' log ih =>
    by_cases hreq' : e'.isReq = true
    . rw [sinceReq_cons_req hreq'] at hmem
      cases hmem
    . have hreq' : e'.isReq = false := Bool.eq_false_iff.2 hreq'
      rw [lastReq_cons hreq'] at hreq
      rw [sinceReq_cons hreq'] at hmem
      rcases List.mem_cons.1 hmem with rfl | hmem
      . have hjust : lastReq log = some (.dnReq j s b) := h.2
        rw [hreq] at hjust
        exact Option.some.inj hjust
      . exact ih h.1 hreq hmem

/-- Between two confirmations there is a request. -/
theorem confirmed_once {e con : Event} {later between pre : List Event}
    (h : Sound (later ++ e :: (between ++ con :: pre))) (he : e.isCon = true) (hcon : con.isCon = true)
    : ∃ e' ∈ between, e'.isReq = true := by
  by_contra hnone
  have hnone : ∀ e' ∈ between.reverse, e'.isReq = false := fun e' he' =>
    Bool.eq_false_iff.2 fun hreq => hnone ⟨e', List.mem_reverse.1 he', hreq⟩
  have hopen : Unconfirmed (between ++ con :: pre) := by
    have hjust := h.suffix.2
    cases e with
    | dnCon | upCon => exact hjust.1
    | dnReq | upReq | wrote | read => cases he
  -- No request comes after the first confirmation: the second finds it in its own transfer.
  have hsince : con ∈ sinceReq (between.reverse.reverse ++ con :: pre) := by
    refine @log_keeps (con :: pre) between.reverse (fun log => con ∈ sinceReq log) ?_ hnone ?_
    . intro e' log hreq hmem
      rw [sinceReq_cons hreq]
      exact List.mem_cons_of_mem _ hmem
    . rw [sinceReq_cons (Event.isCon_isReq hcon)]
      exact List.mem_cons_self
  rw [List.reverse_reverse] at hsince
  rw [hopen con hsince] at hcon
  cases hcon

/--
A download that the client is told has succeeded was written: between the request and the
confirmation the server has written the bytes of the request to its object, and nothing else to any
object. It is confirmed only once, since no other confirmation comes before the next request.
-/
theorem download_agrees {pre post : List Event} (h : Link.Reaches link)
    (hlog : link.log = post ++ .dnCon i sub 0 :: pre)
    : (∃ bytes since earlier, pre = since ++ .dnReq i sub bytes :: earlier
        ∧ (∀ e ∈ since, e.isReq = false ∧ e.isCon = false)
        ∧ .wrote i sub bytes ∈ since
        ∧ ∀ j s b, .wrote j s b ∈ since → j = i ∧ s = sub ∧ b = bytes)
      ∧ ∀ later e between, post = later ++ e :: between → e.isCon = true →
        ∃ e' ∈ between, e'.isReq = true := by
  have hsound := sound_run h
  rw [hlog] at hsound
  constructor
  . obtain ⟨hsound, hopen, bytes, hreq, hwrote⟩ := hsound.suffix
    obtain ⟨earlier, hpre⟩ := lastReq_split hreq
    refine ⟨bytes, sinceReq pre, earlier, hpre, fun e he => ⟨sinceReq_isReq he, hopen e he⟩, hwrote rfl, ?_⟩
    intro j s b hmem
    have heq := wrote_since hsound hreq hmem
    cases heq
    exact ⟨rfl, rfl, rfl⟩
  . rintro later e between rfl he
    rw [List.append_assoc, List.cons_append] at hsound
    exact confirmed_once hsound he rfl

/--
A run of two downloads. The bus delivers the request of the first one twice, which the server writes
twice, and the client lets the second answer go by.
-/
theorem reaches_downloads
    : ∃ link, Link.Reaches link ∧ link.log
      = [.dnCon 0x2000 1 0, .wrote 0x2000 1 [8], .dnReq 0x2000 1 [8]] ++ .dnCon 0x2000 1 0
        :: [.wrote 0x2000 1 [7], .wrote 0x2000 1 [7], .dnReq 0x2000 1 [7]] := by
  have hfirst := Link.Reaches.init.step (.dnReq 0x2000 1 [7] ⟨rfl, rfl⟩ (by decide) rfl)
  have hdoubled := hfirst.step (.faultToServer (.double [] _ []))
  have hdone := hdoubled.delivers (openDev [] (by decide)) targetMem 4
  have hsecond := hdone.step (.dnReq 0x2000 1 [8] ⟨rfl, rfl⟩ (by decide) rfl)
  exact ⟨_, hsecond.delivers (openDev [] (by decide)) targetMem 2, rfl⟩

theorem download_agrees_doubled
    : ∃ link pre post, Link.Reaches link ∧ link.log = post ++ .dnCon 0x2000 1 0 :: pre
      ∧ (∃ bytes since earlier, pre = since ++ .dnReq 0x2000 1 bytes :: earlier
        ∧ (∀ e ∈ since, e.isReq = false ∧ e.isCon = false)
        ∧ .wrote 0x2000 1 bytes ∈ since
        ∧ ∀ j s b, .wrote j s b ∈ since → j = 0x2000 ∧ s = 1 ∧ b = bytes)
      ∧ ∀ later e between, post = later ++ e :: between → e.isCon = true →
        ∃ e' ∈ between, e'.isReq = true := by
  obtain ⟨link, hreaches, hlog⟩ := reaches_downloads
  exact ⟨link, _, _, hreaches, hlog, download_agrees hreaches hlog⟩

/--
An upload that the client is told has succeeded gives it a value that the server has read from the
object between the request and the confirmation, and nothing is written meanwhile. It is confirmed only
once.
-/
theorem upload_agrees {pre post : List Event} (h : Link.Reaches link)
    (hlog : link.log = post ++ .upCon i sub 0 bytes :: pre)
    : (∃ since earlier, pre = since ++ .upReq i sub :: earlier
        ∧ (∀ e ∈ since, e.isReq = false ∧ e.isCon = false)
        ∧ .read i sub bytes ∈ since
        ∧ ∀ j s b, .wrote j s b ∉ since)
      ∧ ∀ later e between, post = later ++ e :: between → e.isCon = true →
        ∃ e' ∈ between, e'.isReq = true := by
  have hsound := sound_run h
  rw [hlog] at hsound
  constructor
  . obtain ⟨hsound, hopen, hreq, hread⟩ := hsound.suffix
    obtain ⟨earlier, hpre⟩ := lastReq_split hreq
    refine ⟨sinceReq pre, earlier, hpre, fun e he => ⟨sinceReq_isReq he, hopen e he⟩, hread rfl, ?_⟩
    intro j s b hmem
    have heq := wrote_since hsound hreq hmem
    cases heq
  . rintro later e between rfl he
    rw [List.append_assoc, List.cons_append] at hsound
    exact confirmed_once hsound he rfl

/-- A run of two uploads. The bus loses the request of the first one, and the client gives up. -/
theorem reaches_uploads
    : ∃ link, Link.Reaches link ∧ link.log
      = [] ++ .upCon 0x2000 1 0 [7]
        :: [.read 0x2000 1 [7], .upReq 0x2000 1, .upCon 0x2000 1 acTimeout [], .upReq 0x2000 1] := by
  have htimeout := Link.Reaches.init.step (.clientTimeout 500)
  have hfirst := htimeout.step (.upReq 0x2000 1 ⟨rfl, rfl⟩ rfl)
  have hlost := (hfirst.step (.faultToServer (.lose [] _ []))).step (.clientTimer rfl)
  have hquiet := hlost.delivers (openDev [7] (by decide)) targetMem 1
  have hsecond := hquiet.step (.upReq 0x2000 1 ⟨rfl, rfl⟩ rfl)
  exact ⟨_, hsecond.delivers (openDev [7] (by decide)) targetMem 2, rfl⟩

theorem upload_agrees_lost
    : ∃ link pre post, Link.Reaches link ∧ link.log = post ++ .upCon 0x2000 1 0 [7] :: pre
      ∧ (∃ since earlier, pre = since ++ .upReq 0x2000 1 :: earlier
        ∧ (∀ e ∈ since, e.isReq = false ∧ e.isCon = false)
        ∧ .read 0x2000 1 [7] ∈ since
        ∧ ∀ j s b, .wrote j s b ∉ since)
      ∧ ∀ later e between, post = later ++ e :: between → e.isCon = true →
        ∃ e' ∈ between, e'.isReq = true := by
  obtain ⟨link, hreaches, hlog⟩ := reaches_uploads
  exact ⟨link, _, _, hreaches, hlog, upload_agrees hreaches hlog⟩

/--
The server writes nothing that was not requested as a whole: each write, also one that comes when the
client has given up, is of the bytes of the last request.
-/
theorem writes_requested {pre post : List Event} (h : Link.Reaches link)
    (hlog : link.log = post ++ .wrote i sub bytes :: pre)
    : ∃ since earlier, pre = since ++ .dnReq i sub bytes :: earlier ∧ ∀ e ∈ since, e.isReq = false := by
  have hsound := sound_run h
  rw [hlog] at hsound
  obtain ⟨-, hreq⟩ := hsound.suffix
  obtain ⟨earlier, hpre⟩ := lastReq_split hreq
  exact ⟨sinceReq pre, earlier, hpre, fun e he => sinceReq_isReq he⟩

theorem writes_requested_two
    : ∃ link pre post, Link.Reaches link ∧ link.log = post ++ .wrote 0x2000 1 [7] :: pre
      ∧ ∃ since earlier, pre = since ++ .dnReq 0x2000 1 [7] :: earlier
        ∧ ∀ e ∈ since, e.isReq = false := by
  obtain ⟨link, hreaches, hlog⟩ := reaches_downloads
  have hwrote : link.log = [.dnCon 0x2000 1 0, .wrote 0x2000 1 [8], .dnReq 0x2000 1 [8], .dnCon 0x2000 1 0]
      ++ .wrote 0x2000 1 [7] :: [.wrote 0x2000 1 [7], .dnReq 0x2000 1 [7]] := hlog
  exact ⟨link, _, _, hreaches, hwrote, writes_requested hreaches hwrote⟩

end LelyRtt.Wire
