import LelyRtt.Wire.Upload

/-!
This module contains the transfers on a channel that loses nothing: each one that the object
dictionary goes along with ends with success, after as many frames as the value takes.
-/

namespace LelyRtt.Wire

namespace Link

/-- The first frame on its way arrives, at the server if there is one for it; `mem` is the client's. -/
def deliver (dev : Dev) (mem : Mem) (link : Link) : Link :=
  match link.toServer with
  | msg :: rest => { link with toServer := rest }.serverDid (link.server.emitRecv dev msg)
  | [] =>
    match link.toClient with
    | msg :: rest => { link with toClient := rest }.clientDid (link.client.emitRecv mem msg)
    | [] => link

/-- `n` frames arrive. -/
def delivers (dev : Dev) (mem : Mem) : Nat → Link → Link
  | 0, link => link
  | n + 1, link => delivers dev mem n (link.deliver dev mem)

/-- Nothing goes on on the channel, and both sides take part in it. -/
structure Ready (link : Link) : Prop where
  quiet : link.Quiet
  client : link.client.Over
  clientState : link.client.state = .wait
  server : link.server.Idle
  serverState : link.server.state = .wait

theorem Reaches.deliver {link : Link} (h : Reaches link) (dev : Dev) (mem : Mem)
    : Reaches (link.deliver dev mem) := by
  unfold Link.deliver
  split
  . next hmsg => exact h.step (.serverRecv dev hmsg)
  . split
    . next hmsg => exact h.step (.clientRecv mem hmsg)
    . exact h

theorem Reaches.delivers {link : Link} (h : Reaches link) (dev : Dev) (mem : Mem) (n : Nat)
    : Reaches (link.delivers dev mem n) := by
  induction n generalizing link with
  | zero => exact h
  | succ n ih => exact ih (h.deliver dev mem)

theorem delivers_add (dev : Dev) (mem : Mem) (m n : Nat) (link : Link)
    : link.delivers dev mem (m + n) = (link.delivers dev mem m).delivers dev mem n := by
  induction m generalizing link with
  | zero => rw [Nat.zero_add]; rfl
  | succ m ih =>
    rw [Nat.succ_add]
    exact ih _

end Link

/-- The segments of a value that is not expedited: an empty one is sent as one empty segment. -/
def segments (data : List UInt8) : Nat := max 1 ((data.length + 6) / 7)

/-- The frames of a transfer on a channel that loses nothing. -/
def transferFrames (data : List UInt8) : Nat := if Expedited data then 2 else 2 * (1 + segments data)

theorem lastChunk_eq {data : List UInt8} {k : Nat} (h : k < segments data)
    : lastChunk data k = decide (k + 1 = segments data) := by
  rw [lastChunk]
  congr 1
  apply propext
  unfold segments at h ⊢
  omega

variable {link : Link} {i : UInt16} {sub : UInt8} {data : List UInt8} {k : Nat} {dev : Dev}
  {mem : Mem} {log : List Event}

theorem ready_init : Link.init.Ready := ⟨⟨rfl, rfl⟩, ⟨.inl rfl, rfl, rfl⟩, rfl, ⟨.inl rfl, rfl, rfl, rfl⟩, rfl⟩

/-- There is memory for a value, and its size is one that the loop of `membuf_reserve` comes to. -/
structure Mem.Holds (mem : Mem) (data : List UInt8) : Prop where
  ok : mem.ok = true
  half : data.length ≤ 2 ^ (mem.width - 1)

/-- A 32-bit target that does not run out of memory. -/
def targetMem : Mem := ⟨32, true, Nat.le_refl 32⟩

/-- An object dictionary that takes and gives everything. -/
def openDev (data : List UInt8) (hfits : data.length < 2 ^ 32) : Dev where
  dnCheck _ _ := 0
  upCheck _ _ := 0
  write _ _ _ := 0
  read _ _ := (0, data)
  mem := targetMem
  fits _ _ := hfits

/-! ### Downloads -/

/-- Request `k` of a download is on its way and nothing else. -/
structure DnAt (i : UInt16) (sub : UInt8) (data : List UInt8) (k : Nat) (link : Link) : Prop where
  toServer : link.toServer = [dnReqMsg i sub data k]
  toClient : link.toClient = []
  client : DnActive i sub data k link.client
  server : match k with
    | 0 => link.server.Idle ∧ link.server.state = .wait
    | k + 1 => DnSession i sub data k link.server

/-- The object dictionary takes a value. -/
structure Dev.Takes (dev : Dev) (i : UInt16) (sub : UInt8) (data : List UInt8) : Prop where
  check : dev.dnCheck i sub = 0
  write : dev.write i sub data = 0
  mem : dev.mem.Holds data

/-- The answer of the server and the client's next step, which is the last one or not. -/
theorem DnAt.turn (h : DnAt i sub data k link) {s : Ssdo} {wrote : List SOut} {evs : List Event}
    (hrecv : link.server.emitRecv dev (dnReqMsg i sub data k)
      = (s, wrote ++ [.send (dnResMsg i sub k)]))
    (hframes : wrote.filterMap SOut.frame = []) (hevents : (wrote.filterMap SOut.event).reverse = evs)
    (hend : DnLast data k → s.Idle ∧ s.state = .wait) (hgoes : ¬ DnLast data k → DnSession i sub data k s)
    : (DnLast data k ∧ (link.delivers dev mem 2).Ready
        ∧ (link.delivers dev mem 2).log = .dnCon i sub 0 :: (evs ++ link.log))
      ∨ (¬ DnLast data k ∧ DnAt i sub data (k + 1) (link.delivers dev mem 2)
        ∧ (link.delivers dev mem 2).log = evs ++ link.log) := by
  have hserver : link.deliver dev mem = { link with
      toServer := [], server := s, toClient := [dnResMsg i sub k], log := evs ++ link.log } := by
    simp [Link.deliver, h.toServer, hrecv, Link.serverDid, h.toClient, hframes, ← hevents]
  have hclient := h.client.recv mem
  have htwo : link.delivers dev mem 2 = { link with
      toServer := [], server := s, toClient := [], log := evs ++ link.log }.clientDid
        (Csdo.enter { sdo := link.client, next := some .dnSeg }) := by
    rw [Link.delivers, Link.delivers, Link.delivers, hserver, Link.deliver]
    dsimp only
    rw [hclient]
  obtain ⟨henter, hlast⟩ | ⟨hlast, c', henter, hactive⟩ := h.client.goes
  . left
    rw [htwo, henter]
    have hs := hend hlast
    refine ⟨hlast, ⟨⟨?_, rfl⟩, Csdo.ended_over _ _, rfl, hs.1, hs.2⟩, ?_⟩
    . simp [Link.clientDid, COut.frame]
    . simp [Link.clientDid, COut.event]
  . right
    rw [htwo, henter]
    refine ⟨hlast, ⟨?_, rfl, hactive, hgoes hlast⟩, ?_⟩
    . simp [Link.clientDid, dnReqMsg]
    . simp [Link.clientDid]

/-- A segment is written by the server when it is the last one. -/
theorem DnAt.segment (hdev : dev.Takes i sub data) (h : DnAt i sub data (k + 1) link)
    (hk : k < segments data)
    : (k + 1 = segments data ∧ (link.delivers dev mem 2).Ready
        ∧ (link.delivers dev mem 2).log = .dnCon i sub 0 :: .wrote i sub data :: link.log)
      ∨ (k + 1 < segments data ∧ DnAt i sub data (k + 2) (link.delivers dev mem 2)
        ∧ (link.delivers dev mem 2).log = link.log) := by
  have hsession : DnSession i sub data k link.server := h.server
  have hlastChunk := lastChunk_eq hk
  have hac : ({ link.server with req := segReq link.server data k }.dnInd dev).2.1 = some 0 := by
    refine @dnInd_zero data _ dev ?_ ?_
    . rw [hsession.idx, hsession.subidx]
      exact hdev.check
    . obtain ⟨-, -, -, ⟨-, hall⟩ | ⟨-, hmore, -⟩⟩ := segReq_dnBuf hsession dev.mem
      . right
        rw [hsession.idx, hsession.subidx]
        exact ⟨hall, hdev.write⟩
      . exact .inl hmore
  obtain ⟨hl, s', hidle, hwait, hrecv⟩ | ⟨hl, s', hsession', hrecv⟩ := hsession.accept dev hac
  . have hle : data.length ≤ 7 * (k + 1) := of_decide_eq_true hl
    have hlast : DnLast data (k + 1) := hle
    rw [hlastChunk, decide_eq_true_iff] at hl
    have hturn := @DnAt.turn link i sub data (k + 1) dev mem h s' [.wrote i sub data] _ hrecv rfl rfl
      (fun _ => ⟨hidle, hwait⟩) (fun hnot => absurd hlast hnot)
    obtain ⟨-, hready, hlog⟩ | ⟨hnot, -⟩ := hturn
    . exact .inl ⟨hl, hready, hlog⟩
    . exact absurd hlast hnot
  . have hle : ¬ data.length ≤ 7 * (k + 1) := of_decide_eq_false hl
    have hlast : ¬ DnLast data (k + 1) := hle
    rw [hlastChunk, decide_eq_false_iff_not] at hl
    have hturn := @DnAt.turn link i sub data (k + 1) dev mem h s' [] _ hrecv rfl rfl
      (fun hyes => absurd hyes hlast) (fun _ => hsession')
    obtain ⟨hyes, -⟩ | ⟨-, hat, hlog⟩ := hturn
    . exact absurd hyes hlast
    . exact .inr ⟨by omega, hat, hlog⟩

/-- All segments that are left. -/
theorem DnAt.segments (mem : Mem) (hdev : dev.Takes i sub data) {n : Nat}
    (h : DnAt i sub data (k + 1) link) (hn : k + 1 + n = segments data)
    : (link.delivers dev mem (2 * (n + 1))).Ready
      ∧ (link.delivers dev mem (2 * (n + 1))).log = .dnCon i sub 0 :: .wrote i sub data :: link.log := by
  induction n generalizing k link with
  | zero =>
    obtain ⟨-, hready, hlog⟩ | ⟨hlt, -⟩ := h.segment hdev (by omega)
    . exact ⟨hready, hlog⟩
    . omega
  | succ n ih =>
    obtain ⟨heq, -⟩ | ⟨-, hat, hlog⟩ := h.segment hdev (by omega)
    . omega
    . rw [show 2 * (n + 1 + 1) = 2 + 2 * (n + 1) by omega, Link.delivers_add, ← hlog]
      exact ih hat (by omega)

/--
On a channel that loses nothing every download that the object accepts succeeds, if the memory of the
server holds it: after the frames that the value takes the server has written it (an empty one twice,
with the initiate request and with the empty segment) and the client has been told so, and the channel
is ready for the next transfer.
-/
theorem download_completes (hready : link.Ready) (hvalid : link.client.valid = true)
    (hsize : data.length < 2 ^ 32) (hdev : dev.Takes i sub data)
    : ∃ r, link.client.dnReq i sub data = some r
      ∧ (({ link with log := .dnReq i sub data :: link.log }.clientDid r).delivers dev mem
        (transferFrames data)).Ready
      ∧ (({ link with log := .dnReq i sub data :: link.log }.clientDid r).delivers dev mem
        (transferFrames data)).log
        = .dnCon i sub 0 :: .wrote i sub data :: (if data = [] then [.wrote i sub data] else [])
          ++ .dnReq i sub data :: link.log := by
  obtain ⟨r, hr⟩ : ∃ r, link.client.dnReq i sub data = some r := by
    rw [Csdo.dnReq, if_neg (by simp [hvalid, hready.clientState])]
    exact ⟨_, rfl⟩
  refine ⟨r, hr, ?_⟩
  obtain ⟨hout, hactive⟩ := Csdo.dnReq_some hr hsize
  have hstart : { link with log := .dnReq i sub data :: link.log }.clientDid r
      = { link with
        client := r.1, toServer := [dnReqMsg i sub data 0], log := .dnReq i sub data :: link.log } := by
    simp [Link.clientDid, hout, hready.quiet.1]
  rw [hstart]
  have hat : DnAt i sub data 0 { link with
      client := r.1, toServer := [dnReqMsg i sub data 0], log := .dnReq i sub data :: link.log } :=
    ⟨rfl, hready.quiet.2, hactive, hready.server, hready.serverState⟩
  have hac : ({ link.server with idx := i, subidx := sub, req := iniReq link.server data }.dnInd dev).2.1
      = some 0 := by
    refine @dnInd_zero data _ dev hdev.check ?_
    obtain ⟨hall, -⟩ | ⟨-, hmore, -⟩ | ⟨hmem, -⟩ | ⟨hlarge, -⟩ :=
      iniReq_dnBuf link.server data dev.mem hsize
    . exact .inr ⟨hall, hdev.write⟩
    . exact .inl hmore
    . rw [hdev.mem.ok] at hmem
      cases hmem
    . exact absurd hdev.mem.half (Nat.not_le_of_lt hlarge)
  obtain ⟨s', hs', hrecv⟩ := @dnIni_accept i sub data link.server dev hready.server hready.serverState hsize hac
  by_cases hexp : Expedited data
  . have hne : data ≠ [] := fun hnil => hexp.1 (by rw [hnil]; rfl)
    rw [if_pos hexp.2] at hrecv
    have hs : s'.Idle ∧ s'.state = .wait := by
      rcases hs' with h | h
      . exact h.2
      . exact absurd hexp h.1
    have hturn := @DnAt.turn _ i sub data 0 dev mem hat s' [.wrote i sub data] _ hrecv rfl rfl
      (fun _ => hs) (fun hnot => absurd hexp hnot)
    obtain ⟨-, hdone, hlog⟩ | ⟨hnot, -⟩ := hturn
    . rw [transferFrames, if_pos hexp, if_neg hne]
      exact ⟨hdone, hlog⟩
    . exact absurd hexp hnot
  . have hs : DnSession i sub data 0 s' := by
      rcases hs' with h | h
      . exact absurd h.1 hexp
      . exact h.2
    rw [transferFrames, if_neg hexp, show 2 * (1 + segments data) = 2 + 2 * (segments data - 1 + 1) by
      unfold segments; omega, Link.delivers_add]
    by_cases hnil : data = []
    . have hle : data.length ≤ 4 := by rw [hnil]; exact Nat.zero_le 4
      rw [if_pos hle] at hrecv
      have hturn := @DnAt.turn _ i sub data 0 dev mem hat s' [.wrote i sub data] _ hrecv rfl rfl
        (fun hyes => absurd hyes hexp) (fun _ => hs)
      obtain ⟨hyes, -⟩ | ⟨-, hat', hlog⟩ := hturn
      . exact absurd hyes hexp
      . have hrest := hat'.segments mem hdev (n := segments data - 1) (by unfold segments; omega)
        rw [hlog] at hrest
        rw [if_pos hnil]
        exact hrest
    . have hle : ¬ data.length ≤ 4 := by
        intro hle
        exact hexp ⟨fun hzero => hnil (List.length_eq_zero_iff.1 hzero), hle⟩
      rw [if_neg hle] at hrecv
      have hturn := @DnAt.turn _ i sub data 0 dev mem hat s' [] _ hrecv rfl rfl
        (fun hyes => absurd hyes hexp) (fun _ => hs)
      obtain ⟨hyes, -⟩ | ⟨-, hat', hlog⟩ := hturn
      . exact absurd hyes hexp
      . have hrest := hat'.segments mem hdev (n := segments data - 1) (by unfold segments; omega)
        rw [hlog] at hrest
        rw [if_neg hnil]
        exact hrest

theorem download_completes_ten
    : ∃ r, Link.init.client.dnReq 0x2000 1 [0, 1, 2, 3, 4, 5, 6, 7, 8, 9] = some r
      ∧ (({ Link.init with log := [.dnReq 0x2000 1 [0, 1, 2, 3, 4, 5, 6, 7, 8, 9]] }.clientDid r).delivers
        (openDev [] (by decide)) targetMem (transferFrames [0, 1, 2, 3, 4, 5, 6, 7, 8, 9])).Ready
      ∧ (({ Link.init with log := [.dnReq 0x2000 1 [0, 1, 2, 3, 4, 5, 6, 7, 8, 9]] }.clientDid r).delivers
        (openDev [] (by decide)) targetMem (transferFrames [0, 1, 2, 3, 4, 5, 6, 7, 8, 9])).log
        = [.dnCon 0x2000 1 0, .wrote 0x2000 1 [0, 1, 2, 3, 4, 5, 6, 7, 8, 9],
          .dnReq 0x2000 1 [0, 1, 2, 3, 4, 5, 6, 7, 8, 9]] :=
  download_completes ready_init rfl (by decide) ⟨rfl, rfl, rfl, by decide⟩

/-! ### Uploads -/

/-- Request `k + 1` of an upload is on its way and nothing else. -/
structure UpAt (i : UInt16) (sub : UInt8) (data : List UInt8) (k : Nat) (link : Link) : Prop where
  toServer : link.toServer = [upReqMsg i sub (k + 1)]
  toClient : link.toClient = []
  client : UpActive i sub data (k + 1) link.client
  size : link.client.size = data.length
  server : UpSession i sub data link.log k link.server

/-- The object dictionary gives a value. -/
structure Dev.Gives (dev : Dev) (i : UInt16) (sub : UInt8) (data : List UInt8) : Prop where
  check : dev.upCheck i sub = 0
  read : dev.read i sub = (0, data)
  mem : dev.mem.Holds data

/-- The two frames of a segment, of the last one or of another. -/
theorem UpAt.segment (hdev : dev.Gives i sub data) (h : UpAt i sub data k link)
    (hk : k < segments data)
    : (k + 1 = segments data ∧ (link.delivers dev mem 2).Ready
        ∧ (link.delivers dev mem 2).log = .upCon i sub 0 data :: link.log)
      ∨ (k + 1 < segments data ∧ UpAt i sub data (k + 1) (link.delivers dev mem 2)
        ∧ (link.delivers dev mem 2).log = link.log) := by
  have hlastChunk := lastChunk_eq hk
  have hleft := h.server.left
  have hle : 7 * k ≤ data.length := by
    by_cases hk : k = 0
    . subst hk
      omega
    . exact Nat.le_of_lt (hleft hk)
  have hclient := h.client.segment mem
  -- The answer of the server is the same in both cases.
  have htwo {s : Ssdo} (hrecv : link.server.emitRecv dev (upReqMsg i sub (k + 1))
        = (s, [.send (upResMsg i sub data (k + 1))]))
      : link.delivers dev mem 2 = { link with toServer := [], server := s, toClient := [] }.clientDid
          (link.client.emitRecv mem (segMsg data k)) := by
    have hserver : link.deliver dev mem = { link with
        toServer := [], server := s, toClient := [upResMsg i sub data (k + 1)] } := by
      simp [Link.deliver, h.toServer, hrecv, Link.serverDid, h.toClient]
    rw [Link.delivers, Link.delivers, Link.delivers, hserver]
    rfl
  obtain ⟨hmem, -⟩ | ⟨hl, s', hidle, hwait, hrecv⟩ | ⟨hl, s', hsession, hrecv⟩ := h.server.accept dev
  . rw [hdev.mem.ok] at hmem
    cases hmem
  . obtain ⟨hnot, -⟩ | ⟨-, c', hover, hstate, hcon⟩ | ⟨hl', -⟩ := hclient
    . exact absurd ⟨h.size, hle⟩ hnot
    . left
      rw [htwo hrecv, hcon]
      rw [hlastChunk, decide_eq_true_iff] at hl
      refine ⟨hl, ⟨⟨?_, rfl⟩, hover, hstate, hidle, hwait⟩, ?_⟩
      . simp [Link.clientDid, COut.frame]
      . simp [Link.clientDid, COut.event]
    . rw [hl] at hl'
      cases hl'
  . obtain ⟨hnot, -⟩ | ⟨hl', -⟩ | ⟨-, c', hsend, hactive, hsize⟩ := hclient
    . exact absurd ⟨h.size, hle⟩ hnot
    . rw [hl] at hl'
      cases hl'
    . right
      rw [htwo hrecv, hsend]
      rw [hlastChunk, decide_eq_false_iff_not] at hl
      refine ⟨by omega, ⟨?_, rfl, hactive, hsize.trans h.size, ?_⟩, ?_⟩
      . simp [Link.clientDid]
      . exact hsession
      . simp [Link.clientDid]

/-- All segments that are left. -/
theorem UpAt.segments (mem : Mem) (hdev : dev.Gives i sub data) {n : Nat}
    (h : UpAt i sub data k link) (hn : k + 1 + n = segments data)
    : (link.delivers dev mem (2 * (n + 1))).Ready
      ∧ (link.delivers dev mem (2 * (n + 1))).log = .upCon i sub 0 data :: link.log := by
  induction n generalizing k link with
  | zero =>
    obtain ⟨-, hready, hlog⟩ | ⟨hlt, -⟩ := h.segment hdev (by omega)
    . exact ⟨hready, hlog⟩
    . omega
  | succ n ih =>
    obtain ⟨heq, -⟩ | ⟨-, hat, hlog⟩ := h.segment hdev (by omega)
    . omega
    . rw [show 2 * (n + 1 + 1) = 2 + 2 * (n + 1) by omega, Link.delivers_add, ← hlog]
      exact ih hat (by omega)

/--
On a channel that loses nothing every upload that the object dictionary goes along with succeeds, if the
memory of both sides holds the value: after the frames that it takes the client has been given the value
that the server read once, and the channel is ready for the next transfer.
-/
theorem upload_completes (hready : link.Ready) (hvalid : link.client.valid = true)
    (hsize : data.length < 2 ^ 32) (hdev : dev.Gives i sub data) (hmem : mem.Holds data)
    : ∃ r, link.client.upReq i sub = some r
      ∧ (({ link with log := .upReq i sub :: link.log }.clientDid r).delivers dev mem
        (transferFrames data)).Ready
      ∧ (({ link with log := .upReq i sub :: link.log }.clientDid r).delivers dev mem
        (transferFrames data)).log
        = .upCon i sub 0 data :: .read i sub data :: .upReq i sub :: link.log := by
  obtain ⟨r, hr⟩ : ∃ r, link.client.upReq i sub = some r := by
    rw [Csdo.upReq, if_neg (by simp [hvalid, hready.clientState])]
    exact ⟨_, rfl⟩
  refine ⟨r, hr, ?_⟩
  obtain ⟨hout, hactive⟩ := Csdo.upReq_some hr
  have hstart : { link with log := .upReq i sub :: link.log }.clientDid r
      = { link with
        client := r.1, toServer := [upReqMsg i sub 0], log := .upReq i sub :: link.log } := by
    simp [Link.clientDid, hout, hready.quiet.1]
  rw [hstart]
  have hlength : (dev.read i sub).2 = data := by rw [hdev.read]
  obtain ⟨req, hup, hbuf, hreqSize, hoffset⟩ : ∃ req, link.server.req.clear.up data dev.mem = (req, some 0)
      ∧ req.buf = data ∧ req.size = data.length ∧ req.offset = 0 := by
    have hfits := dev.fits i sub
    rw [hlength] at hfits
    obtain hup | ⟨hnoMem, -⟩ | ⟨hlarge, -⟩ := up_cases link.server.req.clear hfits
    . exact hup
    . rw [hdev.mem.ok] at hnoMem
      cases hnoMem
    . exact absurd hdev.mem.half (Nat.not_le_of_lt hlarge)
  have hind : { link.server with idx := i, subidx := sub, req := link.server.req.clear }.upInd dev
      = ({ link.server with idx := i, subidx := sub, nbyte := 0, req }, some 0, [.read i sub data]) := by
    simp [Ssdo.upInd, hdev.check, hdev.read, hup]
  obtain ⟨hnoMem, -⟩ | ⟨s', hs', hrecv⟩ := upIni_accept dev (lastReq_cons_req rfl) hready.server
    hready.serverState hind hbuf hreqSize hoffset
  . rw [hdev.mem.ok] at hnoMem
    cases hnoMem
  . have htwo : Link.delivers dev mem 2 { link with
          client := r.1, toServer := [upReqMsg i sub 0], log := .upReq i sub :: link.log }
        = { link with
          client := r.1, toServer := [], server := s', toClient := [],
          log := .read i sub data :: .upReq i sub :: link.log }.clientDid
            (r.1.emitRecv mem (upResMsg i sub data 0)) := by
      have hserver : Link.deliver dev mem { link with
            client := r.1, toServer := [upReqMsg i sub 0], log := .upReq i sub :: link.log }
          = { link with
            client := r.1, toServer := [], server := s', toClient := [upResMsg i sub data 0],
            log := .read i sub data :: .upReq i sub :: link.log } := by
        rw [Link.deliver]
        dsimp only
        rw [hrecv]
        simp only [Link.serverDid, hready.quiet.2, List.nil_append]
        rfl
      rw [Link.delivers, Link.delivers, Link.delivers, hserver]
      rfl
    have hactive' : UpActive i sub data 0 r.1 :=
      @Exchange.Rules.active_early _ (upload_rules i sub) [] data [] 0 r.1 (Nat.zero_le 1) hactive
    obtain ⟨hnoMem, -⟩ | ⟨hlarge, -⟩ | ⟨hexp, c', hover, hstate, hcon⟩
      | ⟨hexp, c', hsend, hactive₁, hsize₁⟩ := hactive'.first mem data
    . rw [hmem.ok] at hnoMem
      cases hnoMem
    . exact absurd hmem.half (Nat.not_le_of_lt (hlarge hsize))
    . rw [transferFrames, if_pos hexp, htwo, hcon]
      have hs : s'.Idle ∧ s'.state = .wait := by
        rcases hs' with h | h
        . exact h.2
        . exact absurd hexp h.1
      refine ⟨⟨⟨?_, rfl⟩, hover, hstate, hs.1, hs.2⟩, ?_⟩
      . simp [Link.clientDid, COut.frame]
      . simp [Link.clientDid, COut.event]
    . have hs : UpSession i sub data (.read i sub data :: .upReq i sub :: link.log) 0 s' := by
        rcases hs' with h | h
        . exact absurd h.1 hexp
        . exact h.2
      rw [transferFrames, if_neg hexp, show 2 * (1 + segments data) = 2 + 2 * (segments data - 1 + 1) by
        unfold segments; omega, Link.delivers_add, htwo, hsend]
      have hat : UpAt i sub data 0 ({ link with
          client := r.1, toServer := [], server := s', toClient := [],
          log := .read i sub data :: .upReq i sub :: link.log }.clientDid
            (c', [.send (upReqMsg i sub 1)])) := by
        refine ⟨?_, rfl, hactive₁, hsize₁ hsize, ?_⟩
        . simp [Link.clientDid]
        . exact hs
      have hrest := hat.segments mem hdev (n := segments data - 1) (by unfold segments; omega)
      exact hrest

theorem upload_completes_ten
    : ∃ r, Link.init.client.upReq 0x2000 1 = some r
      ∧ (({ Link.init with log := [.upReq 0x2000 1] }.clientDid r).delivers
        (openDev [0, 1, 2, 3, 4, 5, 6, 7, 8, 9] (by decide)) targetMem
        (transferFrames [0, 1, 2, 3, 4, 5, 6, 7, 8, 9])).Ready
      ∧ (({ Link.init with log := [.upReq 0x2000 1] }.clientDid r).delivers
        (openDev [0, 1, 2, 3, 4, 5, 6, 7, 8, 9] (by decide)) targetMem
        (transferFrames [0, 1, 2, 3, 4, 5, 6, 7, 8, 9])).log
        = [.upCon 0x2000 1 0 [0, 1, 2, 3, 4, 5, 6, 7, 8, 9],
          .read 0x2000 1 [0, 1, 2, 3, 4, 5, 6, 7, 8, 9], .upReq 0x2000 1] :=
  upload_completes ready_init rfl (by decide) ⟨rfl, rfl, rfl, by decide⟩ ⟨rfl, by decide⟩

end LelyRtt.Wire
