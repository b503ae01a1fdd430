import LelyRtt.Wire.Download

/-!
This module contains uploads: the requests and responses of the upload of a value and what client and
server make of them.
-/

namespace LelyRtt.Wire

/-! ### The frames -/

/-- The requests of an upload. -/
def upReqMsg (i : UInt16) (sub : UInt8) : Nat → Msg
  | 0 => iniFrame ccsUpIniReq i sub []
  | k + 1 => segFrame (ccsUpSegReq ||| toggled k) []

/-- The responses of the upload of `data`. -/
def upResMsg (i : UInt16) (sub : UInt8) (data : List UInt8) : Nat → Msg
  | 0 =>
    if Expedited data then iniFrame (scsUpIniRes ||| iniSizeExpSet data.length) i sub data
    else iniFrame (scsUpIniRes ||| iniSizeInd) i sub (Dcf.leBytes 4 data.length)
  | k + 1 => segMsg data k

/--
Response `k` of an upload. More than one value may have been announced when the initiate request
arrived more than once, but all segments are of `v`.
-/
def UpAnswer (i : UInt16) (sub : UInt8) (v : List UInt8) (log : List Event) : Nat → Msg → Prop
  | 0, x => ∃ data, x = upResMsg i sub data 0 ∧ .read i sub data ∈ sinceReq log
  | k + 1, x => x = upResMsg i sub v (k + 1) ∧ .read i sub v ∈ sinceReq log

/-- The client waits for response `k`. -/
structure UpActive (i : UInt16) (sub : UInt8) (v : List UInt8) (k : Nat) (c : Csdo) : Prop where
  state : c.state = if k = 0 then .upIni else .upSeg
  idx : c.idx = i
  subidx : c.subidx = sub
  toggle : c.toggle = toggled k
  dnCon : c.dnCon = false
  upCon : c.upCon = true
  upBuf : c.upBuf.data = v.take (7 * (k - 1))
  room : k ≠ 0 → c.size ≤ c.upBuf.room

/-- The server has answered request `k` of a segmented upload. -/
structure UpSession (i : UInt16) (sub : UInt8) (v : List UInt8) (log : List Event) (k : Nat)
    (s : Ssdo) : Prop where
  state : s.state = .upSeg
  toggle : s.toggle = toggled k
  size : s.req.size = v.length
  buf : s.req.buf = v
  nbyte : s.nbyte = 7 * k
  left : k ≠ 0 → 7 * k < v.length
  read : .read i sub v ∈ sinceReq log

/-- An upload. -/
def upload (i : UInt16) (sub : UInt8) : Exchange where
  request := some (.upReq i sub)
  req k x := x = upReqMsg i sub k
  ans v log k x := UpAnswer i sub v log k x
  active v _ k c := UpActive i sub v k c
  session v log k s := UpSession i sub v log k s

variable {i : UInt16} {sub : UInt8} {v : List UInt8} {k : Nat} {c : Csdo} {s : Ssdo}
  {log : List Event}

/-! ### The client -/

/-- The size that the first response announces is that of the value, if 32 bits hold it. -/
theorem Csdo.iniSize_upResMsg (i : UInt16) (sub : UInt8) (data : List UInt8)
    : iniSize (upResMsg i sub data 0) < 2 ^ 32
      ∧ (data.length < 2 ^ 32 → iniSize (upResMsg i sub data 0) = data.length) := by
  rw [upResMsg, iniSize]
  split
  . next hexp =>
    obtain ⟨-, hbit, hind, hget⟩ :=
      expCs_read (.inr (rfl : scsUpIniRes = 0x40)) (Nat.pos_of_ne_zero hexp.1) hexp.2
    have hle := hexp.2
    rw [cs_iniFrame, if_pos hbit, if_pos hind, hget]
    exact ⟨by omega, fun _ => rfl⟩
  . rw [cs_iniFrame, if_neg (by decide), if_pos (by decide), data_iniFrame]
    refine ⟨?_, leNat_pad⟩
    have hlt := Dcf.leNat_lt (pad 4 (Dcf.leBytes 4 data.length))
    rwa [length_pad] at hlt

theorem Csdo.upReq_some {r : Csdo × List COut} (h : c.upReq i sub = some r)
    : r.2 = [.send (upReqMsg i sub 0)] ∧ UpActive i sub [] 0 r.1 := by
  unfold Csdo.upReq at h
  split at h
  . cases h
  . next hidle =>
    have hwait : c.state = .wait := by
      rw [not_or, not_not] at hidle
      exact hidle.2
    have hne : c.state ≠ .abort := by
      rw [hwait]
      intro habort
      cases habort
    cases h
    rw [Csdo.enter_ini (by exact hne) (.inr (.inl rfl))]
    exact ⟨rfl, rfl, rfl, rfl, rfl, rfl, rfl, rfl, fun h => absurd rfl h⟩

namespace UpActive

theorem busy (h : UpActive i sub v k c) : c.Busy := by
  have hstate := h.state
  split at hstate
  . exact .inr (.inr (.inl hstate))
  . exact .inr (.inr (.inr hstate))

theorem confirm (h : UpActive i sub v k c) (ac : BitVec 32)
    : c.confirm ac = [.upCon i sub ac (if ac = 0 then c.upBuf.data else [])] := by
  rw [Csdo.confirm, if_neg (by simp [h.dnCon]), if_pos h.upCon, h.idx, h.subidx]

/-- The client gives up in a state that differs in what an abort does not show. -/
theorem quits_of {c' : Csdo} (h : UpActive i sub v k c) (hstate : c'.state = c.state)
    (hidx : c'.idx = i) (hsubidx : c'.subidx = sub) (hdnCon : c'.dnCon = false)
    (hupCon : c'.upCon = true) {ac : BitVec 32} (hac : ac ≠ 0)
    : c.Quits (Csdo.enter (c'.abortRes ac)) := by
  refine Csdo.quits_of (by rw [hstate]; exact h.busy.ne_abort) hac ?_ ?_
  . rw [Csdo.sendAbort, Csdo.sendAbort, hidx, hsubidx, h.idx, h.subidx]
  . rw [h.confirm, Csdo.confirm, if_neg (by simp [hdnCon]), if_pos hupCon, hidx, hsubidx, if_neg hac,
      if_neg hac]

/-- The client confirms the value that it has. -/
theorem confirms {c' : Csdo} {bytes : List UInt8} (hne : c'.state ≠ .abort) (hidx : c'.idx = i)
    (hsubidx : c'.subidx = sub) (hdnCon : c'.dnCon = false) (hupCon : c'.upCon = true)
    (hbytes : c'.upBuf.data = bytes)
    : Csdo.enter (c'.abortInd 0) = (c'.ended 0, [.upCon i sub 0 bytes]) := by
  rw [Csdo.enter_abortInd hne, Csdo.confirm, if_neg (by simp [hdnCon]), if_pos hupCon, if_pos rfl, hidx,
    hsubidx, hbytes]

/-- The client asks for the next segment. -/
theorem asks {c' : Csdo} (hne : c'.state ≠ .abort) (htoggle : c'.toggle = toggled k) (hidx : c'.idx = i)
    (hsubidx : c'.subidx = sub) (hdnCon : c'.dnCon = false) (hupCon : c'.upCon = true)
    (hbuf : c'.upBuf.data = v.take (7 * k)) (hroom : c'.size ≤ c'.upBuf.room)
    : ∃ c'', Csdo.enter {
          sdo := c'.armTimer.sendUpSegReq.1, out := [c'.armTimer.sendUpSegReq.2], next := some .upSeg }
        = (c'', [.send (upReqMsg i sub (k + 1))]) ∧ UpActive i sub v (k + 1) c''
      ∧ c''.size = c'.size := by
  have hne' : c'.armTimer.sendUpSegReq.1.state ≠ .abort := hne
  have hout : c'.armTimer.sendUpSegReq.2 = .send (upReqMsg i sub (k + 1)) := by
    simp only [Csdo.sendUpSegReq, Csdo.armTimer, htoggle]
    rfl
  have htoggle' : c'.armTimer.sendUpSegReq.1.toggle = toggled (k + 1) := by
    rw [toggled_succ, ← htoggle]
    rfl
  rw [Csdo.enter_upSeg hne', hout]
  exact ⟨_, rfl, ⟨rfl, hidx, hsubidx, htoggle', hdnCon, hupCon, hbuf, fun _ => hroom⟩, rfl⟩

/-- The first response of an upload: an expedited value is complete, any other is asked for. -/
theorem first (h : UpActive i sub v 0 c) (mem : Mem) (data : List UInt8)
    : (mem.ok = false ∧ c.Quits (c.emitRecv mem (upResMsg i sub data 0)))
      ∨ ((data.length < 2 ^ 32 → 2 ^ (mem.width - 1) < data.length)
        ∧ (c.emitRecv mem (upResMsg i sub data 0)).1.state = .reserving
        ∧ (c.emitRecv mem (upResMsg i sub data 0)).2 = [])
      ∨ (Expedited data ∧ ∃ c', c'.Over ∧ c'.state = .wait
        ∧ c.emitRecv mem (upResMsg i sub data 0) = (c', [.upCon i sub 0 data]))
      ∨ (¬ Expedited data ∧ ∃ c',
        c.emitRecv mem (upResMsg i sub data 0) = (c', [.send (upReqMsg i sub 1)])
          ∧ UpActive i sub v 1 c' ∧ (data.length < 2 ^ 32 → c'.size = data.length)) := by
  have hne := h.busy.ne_abort
  have hstate : c.state = .upIni := h.state
  have hempty : c.upBuf.data = [] := h.upBuf
  have hother : c.otherObject (upResMsg i sub data 0) = false := by
    rw [upResMsg]
    split <;> simp [Csdo.otherObject, h.idx, h.subidx]
  have hlen : ¬ (upResMsg i sub data 0).length < 1 := by
    rw [upResMsg]
    split <;> simp
  have hmask : (upResMsg i sub data 0).cs &&& csMask = scsUpIniRes := by
    rw [upResMsg]
    split
    . next hexp =>
      rw [cs_iniFrame]
      exact (expCs_read (.inr rfl) (Nat.pos_of_ne_zero hexp.1) hexp.2).1
    . rw [cs_iniFrame]
      decide
  have hrecv : c.emitRecv mem (upResMsg i sub data 0)
      = Csdo.enter (c.upIniOnRecv mem (upResMsg i sub data 0)) := by
    rw [Csdo.emitRecv, hstate]
  rw [hrecv]
  dsimp only [Csdo.upIniOnRecv]
  rw [if_neg hlen, if_pos hmask, hother, if_neg Bool.false_ne_true]
  obtain ⟨hsizeLt, hsize⟩ := Csdo.iniSize_upResMsg i sub data
  have hfits : c.upBuf.data.length + Csdo.iniSize (upResMsg i sub data 0) < 2 ^ mem.width := by
    rw [hempty, List.length_nil, Nat.zero_add]
    exact Nat.lt_of_lt_of_le hsizeLt (Nat.pow_le_pow_right (by omega) mem.wide)
  cases hreserve : if Csdo.iniSize (upResMsg i sub data 0) = 0 then .room c.upBuf
      else c.upBuf.reserve (Csdo.iniSize (upResMsg i sub data 0)) mem with
  | never =>
    right
    left
    have hlarge : 2 ^ (mem.width - 1) < Csdo.iniSize (upResMsg i sub data 0) := by
      split at hreserve
      . cases hreserve
      . have hnever := Membuf.reserve_never hfits hreserve
        rwa [hempty, List.length_nil, Nat.zero_add] at hnever
    dsimp only
    rw [Csdo.enter_ini (by exact hne) (.inr (.inr rfl))]
    exact ⟨fun hlt => by rwa [hsize hlt] at hlarge, rfl, rfl⟩
  | noMem =>
    left
    have hmem : mem.ok = false := by
      split at hreserve
      . cases hreserve
      . exact Membuf.reserve_noMem hreserve
    dsimp only
    refine ⟨hmem, h.quits_of ?_ ?_ ?_ ?_ ?_ ?_⟩
    . rfl
    . exact h.idx
    . exact h.subidx
    . exact h.dnCon
    . exact h.upCon
    . decide
  | room buf =>
    have hbuf : buf.data = [] ∧ Csdo.iniSize (upResMsg i sub data 0) ≤ buf.room := by
      split at hreserve
      . next hzero =>
        cases hreserve
        exact ⟨hempty, by omega⟩
      . obtain ⟨hdata, hroom⟩ := Membuf.reserve_data hfits hreserve
        rw [hempty, List.length_nil, Nat.zero_add] at hroom
        exact ⟨hdata.trans hempty, hroom⟩
    right
    right
    dsimp only
    by_cases hexp : Expedited data
    . obtain ⟨-, hbit, -, -⟩ :=
        expCs_read (.inr (rfl : scsUpIniRes = 0x40)) (Nat.pos_of_ne_zero hexp.1) hexp.2
      have hmsg : upResMsg i sub data 0
          = iniFrame (scsUpIniRes ||| iniSizeExpSet data.length) i sub data := if_pos hexp
      have hle := hexp.2
      have hsize := hsize (by omega)
      left
      rw [hsize] at hbuf
      have hcs : (upResMsg i sub data 0).cs = scsUpIniRes ||| iniSizeExpSet data.length := by
        rw [hmsg, cs_iniFrame]
      have hdata : (upResMsg i sub data 0).data.take data.length = data := by
        rw [hmsg, data_iniFrame, take_pad hexp.2]
      rw [Csdo.upIniData, hcs, decide_eq_true hbit, if_pos rfl, hsize, hdata]
      refine ⟨hexp, _, Csdo.ended_over _ 0, rfl, confirms ?_ ?_ ?_ ?_ ?_ ?_⟩
      . exact hne
      . exact h.idx
      . exact h.subidx
      . exact h.dnCon
      . exact h.upCon
      . have hfits : buf.data.length + data.length ≤ buf.room := by
          rw [hbuf.1, List.length_nil, Nat.zero_add]
          exact hbuf.2
        show (buf.write data).data = data
        rw [Membuf.write_data hfits, hbuf.1, List.nil_append]
    . have hmsg : upResMsg i sub data 0
          = iniFrame (scsUpIniRes ||| iniSizeInd) i sub (Dcf.leBytes 4 data.length) := if_neg hexp
      have hbit : decide ((scsUpIniRes ||| iniSizeInd) &&& iniSizeExp ≠ 0) = false := by decide
      right
      have hcs : (upResMsg i sub data 0).cs = scsUpIniRes ||| iniSizeInd := by
        rw [hmsg, cs_iniFrame]
      rw [Csdo.upIniData, hcs, hbit, if_neg Bool.false_ne_true]
      have hasks := @asks i sub v 0
        { c with size := Csdo.iniSize (upResMsg i sub data 0), upBuf := buf } hne h.toggle h.idx
        h.subidx h.dnCon h.upCon hbuf.1 hbuf.2
      obtain ⟨c', hsend, hactive, hsame⟩ := hasks
      exact ⟨hexp, c', hsend, hactive, fun hlt => hsame.trans (hsize hlt)⟩

/-- A segment of the value: the one that the client waits for, or the one before. -/
theorem segment (h : UpActive i sub v (k + 1) c) (mem : Mem)
    : (¬ (c.size = v.length ∧ 7 * k ≤ v.length) ∧ c.Quits (c.emitRecv mem (segMsg v k)))
      ∨ (lastChunk v k = true ∧ ∃ c', c'.Over ∧ c'.state = .wait
        ∧ c.emitRecv mem (segMsg v k) = (c', [.upCon i sub 0 v]))
      ∨ (lastChunk v k = false ∧ ∃ c',
        c.emitRecv mem (segMsg v k) = (c', [.send (upReqMsg i sub (k + 2))])
          ∧ UpActive i sub v (k + 2) c' ∧ c'.size = c.size) := by
  have hne := h.busy.ne_abort
  have hchunk : (chunk v k).length ≤ 7 := by
    rw [length_chunk]
    omega
  obtain ⟨hmask, htoggle, hsize, hlast⟩ := segCs_read k (lastChunk v k) hchunk
  have hlen : (segMsg v k).length = 8 := length_segFrame _ _
  have hcs : (segMsg v k).cs = segCs 0x00 k (chunk v k).length (lastChunk v k) := rfl
  have hdata : ((segMsg v k).drop 1).take (chunk v k).length = chunk v k :=
    drop_segFrame _ _ rfl hchunk
  have hlast' : decide ((segMsg v k).cs &&& segLast ≠ 0) = lastChunk v k := by
    rw [hcs]
    exact Bool.eq_iff_iff.2 (decide_eq_true_iff.trans hlast)
  have hrecv : c.emitRecv mem (segMsg v k) = Csdo.enter (c.upSegOnRecv (segMsg v k)) := by
    rw [Csdo.emitRecv, h.state, if_neg (Nat.succ_ne_zero k)]
  rw [hrecv]
  dsimp only [Csdo.upSegOnRecv]
  rw [if_neg (by omega), hlast', hcs, if_pos (show _ = scsUpSegRes from hmask), htoggle, h.toggle,
    if_neg (toggled_ne_succ k), hsize, if_neg (by omega), hdata]
  have hbuflen : c.upBuf.data.length = min (7 * k) v.length := by
    rw [h.upBuf, Nat.add_sub_cancel, List.length_take]
  have hchunklen := length_chunk v k
  by_cases hfits : c.upBuf.data.length + (chunk v k).length > c.size
  . left
    rw [if_pos hfits]
    exact ⟨by omega, Csdo.quits_abortRes hne (by decide)⟩
  . rw [if_neg hfits]
    have hroom := h.room (Nat.succ_ne_zero k)
    have hwrite : (c.upBuf.write (chunk v k)).data = v.take (7 * (k + 1)) := by
      rw [Membuf.write_data (by omega), h.upBuf, Nat.add_sub_cancel, take_chunk]
    rw [Csdo.upSegData]
    by_cases hl : lastChunk v k = true
    . rw [if_pos hl]
      by_cases hshort : c.size ≠ 0 ∧ (c.upBuf.write (chunk v k)).data.length ≠ c.size
      . left
        rw [if_pos hshort]
        have hle : v.length ≤ 7 * (k + 1) := of_decide_eq_true hl
        have hother : ¬ (c.size = v.length ∧ 7 * k ≤ v.length) := by
          rintro ⟨hsame, -⟩
          exact hshort.2 (by rw [hwrite, List.take_of_length_le hle, hsame])
        refine ⟨hother, h.quits_of ?_ ?_ ?_ ?_ ?_ ?_⟩
        . rfl
        . exact h.idx
        . exact h.subidx
        . exact h.dnCon
        . exact h.upCon
        . decide
      . right
        left
        rw [if_neg hshort]
        refine ⟨hl, _, Csdo.ended_over _ 0, rfl, confirms ?_ ?_ ?_ ?_ ?_ ?_⟩
        . exact hne
        . exact h.idx
        . exact h.subidx
        . exact h.dnCon
        . exact h.upCon
        . have hle : v.length ≤ 7 * (k + 1) := of_decide_eq_true hl
          exact hwrite.trans (List.take_of_length_le hle)
    . right
      right
      rw [if_neg hl]
      have hasks := @asks i sub v (k + 1)
        { c with toggle := toggled (k + 1), upBuf := c.upBuf.write (chunk v k) } hne rfl h.idx h.subidx
        h.dnCon h.upCon hwrite hroom
      obtain ⟨c', hsend, hactive, hsame⟩ := hasks
      exact ⟨Bool.eq_false_iff.2 hl, c', hsend, hactive, hsame⟩

/-- The response before the one that the client waits for: it is ignored unless it is the first. -/
theorem before (h : UpActive i sub v (k + 1) c) (mem : Mem) {x : Msg} (hx : UpAnswer i sub v log k x)
    : c.Quits (c.emitRecv mem x)
      ∨ (UpActive i sub v (k + 1) (c.emitRecv mem x).1 ∧ (c.emitRecv mem x).2 = []) := by
  have hne := h.busy.ne_abort
  have hrecv : c.emitRecv mem x = Csdo.enter (c.upSegOnRecv x) := by
    rw [Csdo.emitRecv, h.state, if_neg (Nat.succ_ne_zero k)]
  rw [hrecv]
  cases k with
  | zero =>
    left
    obtain ⟨data, rfl, -⟩ := hx
    have hlen : ¬ (upResMsg i sub data 0).length < 1 := by
      rw [upResMsg]
      split <;> simp
    have hmask : (upResMsg i sub data 0).cs &&& csMask = scsUpIniRes := by
      rw [upResMsg]
      split
      . next hexp =>
        rw [cs_iniFrame]
        exact (expCs_read (.inr rfl) (Nat.pos_of_ne_zero hexp.1) hexp.2).1
      . rw [cs_iniFrame]
        decide
    simp only [Csdo.upSegOnRecv, if_neg hlen, hmask]
    exact Csdo.quits_abortRes hne (by decide)
  | succ k =>
    right
    obtain ⟨rfl, -⟩ := hx
    have hchunk : (chunk v k).length ≤ 7 := by
      rw [length_chunk]
      omega
    obtain ⟨hmask, htoggle, -, -⟩ := segCs_read k (lastChunk v k) hchunk
    have hlen : (upResMsg i sub v (k + 1)).length = 8 := length_segFrame _ _
    have hcs : (upResMsg i sub v (k + 1)).cs = segCs 0x00 k (chunk v k).length (lastChunk v k) := rfl
    dsimp only [Csdo.upSegOnRecv]
    rw [if_neg (by omega), hcs, if_pos (show _ = scsUpSegRes from hmask), htoggle, h.toggle,
      toggled_add_two, if_pos rfl, Csdo.enter_upSeg hne]
    exact ⟨⟨rfl, h.idx, h.subidx, h.toggle, h.dnCon, h.upCon, h.upBuf, h.room⟩, rfl⟩

end UpActive

/-! ### The server -/

/-- What `co_ssdo_up_buf` copies of a value that is there as a whole. -/
theorem upBuf_whole (dev : Dev) {n : Nat} (hlast : s.req.last = true) (hn : n ≠ 0) (hsmall : n ≤ 7)
    (hempty : s.buf.data = []) (hle : s.nbyte ≤ s.req.nbyte)
    : (dev.mem.ok = false ∧ (s.upBuf dev n).2.1 ≠ some 0 ∧ (s.upBuf dev n).2.2 = [])
      ∨ ∃ buf, s.upBuf dev n
          = ({ s with buf, nbyte := min (s.nbyte + n) s.req.nbyte }, some 0, [])
        ∧ buf.data = (s.req.buf.drop s.nbyte).take n := by
  have hhalf : 2 ^ 31 ≤ 2 ^ (dev.mem.width - 1) :=
    Nat.pow_le_pow_right (by omega) (by have := dev.mem.wide; omega)
  have hfits : s.buf.data.length + n < 2 ^ dev.mem.width := by
    have hwhole : 2 ^ 32 ≤ 2 ^ dev.mem.width := Nat.pow_le_pow_right (by omega) dev.mem.wide
    rw [hempty, List.length_nil]
    omega
  rw [Ssdo.upBuf, if_neg hn]
  cases hreserve : s.buf.reserve n dev.mem with
  | noMem => exact .inl ⟨Membuf.reserve_noMem hreserve, by show some acNoMem ≠ some 0; decide, rfl⟩
  | never =>
    have hlarge := Membuf.reserve_never hfits hreserve
    rw [hempty, List.length_nil] at hlarge
    omega
  | room buf =>
    right
    obtain ⟨hdata, hroom⟩ := Membuf.reserve_data hfits hreserve
    rw [hempty, List.length_nil, Nat.zero_add] at hroom
    rw [hempty] at hdata
    dsimp only
    rw [Ssdo.upBufLoop, if_neg hn]
    dsimp only
    by_cases hall : s.req.nbyte ≤ s.nbyte
    . rw [if_pos hall, if_pos hlast]
      refine ⟨buf, ?_, ?_⟩
      . rw [Nat.min_eq_right (by omega), Nat.le_antisymm hall hle]
      . rw [hdata, List.drop_eq_nil_of_le hall, List.take_nil]
    . rw [if_neg hall]
      have hcopied (n' : Nat) (hn' : n' = min n (s.req.nbyte - s.nbyte))
          : (buf.write ((s.req.buf.drop s.nbyte).take n')).data = (s.req.buf.drop s.nbyte).take n := by
        rw [Membuf.write_data, hdata, List.nil_append, hn', List.take_eq_take_iff, List.length_drop]
        . simp only [SdoReq.nbyte]
          omega
        . rw [hdata, List.length_nil, List.length_take]
          omega
      refine ⟨buf.write ((s.req.buf.drop s.nbyte).take (min n (s.req.nbyte - s.nbyte))), ?_,
        hcopied _ rfl⟩
      have hnbyte : s.nbyte + min n (s.req.nbyte - s.nbyte) = min (s.nbyte + n) s.req.nbyte := by omega
      simp only [Ssdo.upCopy]
      rw [Ssdo.upBufLoop]
      by_cases hleft : n - min n (s.req.nbyte - s.nbyte) = 0
      . rw [if_pos hleft, hnbyte]
      . rw [if_neg hleft]
        dsimp only
        rw [hnbyte, if_pos (by omega), if_pos hlast]

/-- The server sends the next segment of the value, if it has memory for it. -/
theorem UpSession.accept (dev : Dev) (h : UpSession i sub v log k s)
    : (dev.mem.ok = false ∧ (upload i sub).Takes log v (k + 1) (s.emitRecv dev (upReqMsg i sub (k + 1))))
      ∨ (lastChunk v k = true ∧ ∃ s', s'.Idle ∧ s'.state = .wait
        ∧ s.emitRecv dev (upReqMsg i sub (k + 1)) = (s', [.send (upResMsg i sub v (k + 1))]))
      ∨ (lastChunk v k = false ∧ ∃ s', UpSession i sub v log (k + 1) s'
        ∧ s.emitRecv dev (upReqMsg i sub (k + 1)) = (s', [.send (upResMsg i sub v (k + 1))])) := by
  have hleft := h.left
  have hnbyte : s.req.nbyte = v.length := by rw [SdoReq.nbyte, h.buf]
  have hlast : s.req.last = true := by
    rw [SdoReq.last, hnbyte, h.size]
    exact decide_eq_true (Nat.le_add_left _ _)
  have hle : s.nbyte ≤ s.req.nbyte := by
    rw [h.nbyte, hnbyte]
    by_cases hk : k = 0
    . subst hk
      omega
    . exact Nat.le_of_lt (hleft hk)
  have hlen : (upReqMsg i sub (k + 1)).length = 8 := length_segFrame _ _
  have hcs : (upReqMsg i sub (k + 1)).cs = ccsUpSegReq ||| toggled k := rfl
  obtain ⟨hmask, htoggle⟩ := toggleCs_read k (.inr (rfl : ccsUpSegReq = 0x60))
  have hrecv : s.emitRecv dev (upReqMsg i sub (k + 1)) = s.upSegBuf dev := by
    have hstate : s.emitRecv dev (upReqMsg i sub (k + 1)) = s.upSegOnRecv dev (upReqMsg i sub (k + 1)) := by
      rw [Ssdo.emitRecv, h.state]
    rw [hstate]
    dsimp only [Ssdo.upSegOnRecv]
    rw [if_neg (by omega), hcs, hmask, if_pos rfl, htoggle, h.toggle, if_neg (by simp)]
  rw [hrecv, Ssdo.upSegBuf]
  dsimp only
  have hwhole := @upBuf_whole { s with buf := s.buf.clear } dev 7 hlast (by omega) (by omega) rfl hle
  obtain ⟨hmem, hac, hout⟩ | ⟨buf, hread, hdata⟩ := hwhole
  . rw [if_pos hac]
    exact .inl ⟨hmem, takes_refused (by simp [hout]) (by simp [hout])⟩
  . have hchunk : buf.data = chunk v k := by
      rw [hdata]
      show (s.req.buf.drop s.nbyte).take 7 = _
      rw [h.buf, h.nbyte, chunk]
    have hend : decide (min (s.nbyte + 7) s.req.nbyte = s.req.nbyte) = lastChunk v k := by
      rw [h.nbyte, hnbyte, lastChunk]
      congr 1
      apply propext
      omega
    rw [hread]
    dsimp only
    rw [if_neg (by simp), hlast, Bool.true_and, hend, h.toggle, hchunk]
    have hframe : segFrame (if lastChunk v k then
          scsUpSegRes ||| toggled k ||| segSizeSet (chunk v k).length ||| segLast
        else scsUpSegRes ||| toggled k ||| segSizeSet (chunk v k).length) (chunk v k)
        = upResMsg i sub v (k + 1) := rfl
    rw [hframe]
    right
    by_cases hl : lastChunk v k = true
    . rw [if_pos hl]
      exact .inl ⟨hl, _, Ssdo.abortInd_idle _, rfl, rfl⟩
    . rw [if_neg hl]
      have hlt : 7 * (k + 1) < v.length :=
        Nat.lt_of_not_le (of_decide_eq_false (Bool.eq_false_iff.2 hl))
      refine .inr ⟨Bool.eq_false_iff.2 hl, _, ?_, rfl⟩
      exact {
        state := h.state
        toggle := (toggled_succ k).symm
        size := h.size
        buf := h.buf
        nbyte := by
          show min (s.nbyte + 7) s.req.nbyte = 7 * (k + 1)
          rw [h.nbyte, hnbyte]
          omega
        left := fun _ => hlt
        read := h.read }

/-- The server sends the next segment of the value, or aborts. -/
theorem UpSession.next (dev : Dev) (h : UpSession i sub v log k s)
    : (upload i sub).Takes log v (k + 1) (s.emitRecv dev (upReqMsg i sub (k + 1))) := by
  obtain ⟨-, htakes⟩ | ⟨-, s', hidle, -, hrecv⟩ | ⟨-, s', hsession, hrecv⟩ := h.accept dev
  . exact htakes
  . rw [hrecv]
    exact ⟨by simp, .inr ⟨.inl hidle, _, rfl, rfl, h.read⟩⟩
  . rw [hrecv]
    exact ⟨by simp, .inr ⟨.inr hsession, _, rfl, rfl, h.read⟩⟩

/-- A request that the server has had ends the transfer. -/
theorem UpSession.again (dev : Dev) (h : UpSession i sub v log k s)
    : ∃ ac, s.emitRecv dev (upReqMsg i sub k) = s.abortRes ac := by
  cases k with
  | zero =>
    exact ⟨acNoCs, Ssdo.recv_noCs dev (by simp [upReqMsg]) (.inr (.inr ⟨h.state, .inr (by
      rw [upReqMsg, cs_iniFrame]
      decide)⟩))⟩
  | succ k =>
    obtain ⟨hmask, htoggle⟩ := toggleCs_read k (.inr (rfl : ccsUpSegReq = 0x60))
    have hlen : (upReqMsg i sub (k + 1)).length = 8 := length_segFrame _ _
    have hcs : (upReqMsg i sub (k + 1)).cs = ccsUpSegReq ||| toggled k := rfl
    refine ⟨acToggle, ?_⟩
    rw [Ssdo.emitRecv, h.state]
    dsimp only [Ssdo.upSegOnRecv]
    rw [if_neg (by omega), hcs, hmask, if_pos rfl, htoggle, h.toggle, if_pos (toggled_ne_succ k)]

/-- The whole value is in the buffer, unless there is no memory or the buffer never grows to its size. -/
theorem up_cases (req : SdoReq) {bytes : List UInt8} {mem : Mem} (hfits : bytes.length < 2 ^ mem.width)
    : (∃ req', req.up bytes mem = (req', some 0) ∧ req'.buf = bytes ∧ req'.size = bytes.length
        ∧ req'.offset = 0)
      ∨ (mem.ok = false ∧ (req.up bytes mem).2 = some acNoMem)
      ∨ (2 ^ (mem.width - 1) < bytes.length ∧ (req.up bytes mem).2 = none) := by
  have hsum : req.membuf.clear.data.length + bytes.length < 2 ^ mem.width := by
    rwa [Membuf.clear_data, List.length_nil, Nat.zero_add]
  unfold SdoReq.up
  dsimp only
  cases hreserve : req.membuf.clear.reserve bytes.length mem with
  | noMem => exact .inr (.inl ⟨Membuf.reserve_noMem hreserve, rfl⟩)
  | never =>
    have hlarge := Membuf.reserve_never hsum hreserve
    rw [Membuf.clear_data, List.length_nil, Nat.zero_add] at hlarge
    exact .inr (.inr ⟨hlarge, rfl⟩)
  | room buf =>
    obtain ⟨hdata, hroom⟩ := Membuf.reserve_data hsum hreserve
    rw [Membuf.clear_data] at hdata
    rw [Membuf.clear_data, List.length_nil, Nat.zero_add] at hroom
    have hwrite : (buf.write bytes).data = bytes := by
      rw [Membuf.write_data (by rw [hdata, List.length_nil]; omega), hdata, List.nil_append]
    exact .inl ⟨_, rfl, hwrite, congrArg List.length hwrite, rfl⟩

/-- The object dictionary refuses a read, or gives a value. -/
theorem upInd_cases (s : Ssdo) (dev : Dev)
    : ((s.upInd dev).2.1 ≠ some 0 ∧ (s.upInd dev).2.2 = [])
      ∨ ∃ data req, s.upInd dev = ({ s with nbyte := 0, req }, some 0, [.read s.idx s.subidx data])
        ∧ req.buf = data ∧ req.size = data.length ∧ req.offset = 0 := by
  unfold Ssdo.upInd
  split
  . next hcheck => exact .inl ⟨fun heq => hcheck (Option.some.inj heq), rfl⟩
  . dsimp only
    split
    . next hac => exact .inl ⟨fun heq => hac (Option.some.inj heq), rfl⟩
    . have hnoMem : acNoMem ≠ 0#32 := by decide
      obtain ⟨req, hup, hreq⟩ | ⟨-, hup⟩ | ⟨-, hup⟩ :=
        up_cases s.req (dev.fits s.idx s.subidx)
      . right
        refine ⟨_, req, ?_, hreq⟩
        rw [hup, if_pos rfl]
      . left
        simp [hup, hnoMem]
      . left
        simp [hup]

/-- All checks of the initiate request pass. -/
theorem recv_upIni (dev : Dev) (hwait : s.state = .wait)
    : s.emitRecv dev (upReqMsg i sub 0)
      = { s with idx := i, subidx := sub, req := s.req.clear }.upIniInd dev := by
  have hmask : ccsUpIniReq &&& csMask = ccsUpIniReq := by decide
  have hstate : s.emitRecv dev (upReqMsg i sub 0) = s.waitOnRecv dev (upReqMsg i sub 0) := by
    rw [Ssdo.emitRecv, hwait]
  rw [hstate, upReqMsg]
  dsimp only [Ssdo.waitOnRecv, Ssdo.upIniOnRecv]
  rw [length_iniFrame, cs_iniFrame, hmask, if_neg (by omega), if_neg (by decide), if_pos rfl,
    if_neg (by omega), if_neg (by omega), idx_iniFrame, subidx_iniFrame]

/-- What the server has done before the indication that is refused. -/
theorem refuse_append (out : List SOut) (ind : Ssdo × Option (BitVec 32) × List SOut)
    : ((Ssdo.refuse ind).1, out ++ (Ssdo.refuse ind).2) = Ssdo.refuse (ind.1, ind.2.1, out ++ ind.2.2) := by
  unfold Ssdo.refuse
  dsimp only
  split
  . rfl
  . rw [List.append_assoc]

/-- The server gives a short value at once and announces any other, if it has memory for it. -/
theorem upIni_accept (dev : Dev) {data : List UInt8} {req : SdoReq}
    (hlog : lastReq log = some (.upReq i sub)) (hidle : s.Idle) (hwait : s.state = .wait)
    (hind : { s with idx := i, subidx := sub, req := s.req.clear }.upInd dev
      = ({ s with idx := i, subidx := sub, nbyte := 0, req }, some 0, [.read i sub data]))
    (hbuf : req.buf = data) (hsize : req.size = data.length) (hoffset : req.offset = 0)
    : (dev.mem.ok = false ∧ (upload i sub).Takes log data 0 (s.emitRecv dev (upReqMsg i sub 0)))
      ∨ ∃ s', ((Expedited data ∧ s'.Idle ∧ s'.state = .wait)
          ∨ (¬ Expedited data ∧ UpSession i sub data (.read i sub data :: log) 0 s'))
        ∧ s.emitRecv dev (upReqMsg i sub 0)
          = (s', [.read i sub data, .send (upResMsg i sub data 0)]) := by
  rw [recv_upIni dev hwait, Ssdo.upIniInd]
  dsimp only
  rw [hind]
  dsimp only
  have hjust : Justified log (.read i sub data) := hlog
  have hsince : Event.read i sub data ∈ sinceReq (.read i sub data :: log) := by
    rw [sinceReq_cons rfl]
    exact List.mem_cons_self
  rw [if_neg (by simp), hsize]
  by_cases hexp : data.length ≠ 0 ∧ data.length ≤ 4
  . rw [if_pos hexp]
    have hlast : req.last = true := by
      rw [SdoReq.last, SdoReq.nbyte, hbuf, hsize, hoffset]
      exact decide_eq_true (by omega)
    obtain ⟨hmem, hac, hout⟩ | ⟨buf, hread, hdata⟩ := @upBuf_whole
        { s with idx := i, subidx := sub, nbyte := 0, req }
        dev data.length hlast hexp.1 (by have := hexp.2; omega) hidle.buf (Nat.zero_le _)
    . left
      rw [if_pos hac]
      rw [refuse_append]
      exact ⟨hmem, takes_refused (by simpa [hout] using hjust) (by simp [hout])⟩
    . right
      have hall : buf.data = data := by
        rw [hdata]
        show (req.buf.drop 0).take data.length = data
        rw [hbuf, List.drop_zero, List.take_length]
      rw [hread]
      dsimp only
      rw [if_neg (by simp), hall]
      have hframe : iniFrame (scsUpIniRes ||| iniSizeExpSet data.length) i sub data
          = upResMsg i sub data 0 := (if_pos hexp).symm
      rw [hframe]
      exact ⟨_, .inl ⟨hexp, Ssdo.abortInd_idle _, rfl⟩, rfl⟩
  . right
    rw [if_neg hexp]
    have hframe : iniFrame (scsUpIniRes ||| iniSizeInd) i sub (Dcf.leBytes 4 data.length)
        = upResMsg i sub data 0 := (if_neg hexp).symm
    rw [hframe]
    refine ⟨_, .inr ⟨hexp, ?_⟩, rfl⟩
    exact {
      state := rfl
      toggle := hidle.toggle
      size := hsize
      buf := hbuf
      nbyte := rfl
      left := fun h => absurd rfl h
      read := hsince }

/-- The server announces a value, or gives it at once, or aborts. -/
theorem takes_upIni (dev : Dev) (hlog : lastReq log = some (.upReq i sub)) (hidle : s.Idle)
    (hwait : s.state = .wait)
    : ∃ v, (upload i sub).Takes log v 0 (s.emitRecv dev (upReqMsg i sub 0)) := by
  obtain ⟨hac, hout⟩ | ⟨data, req, hind, hreq⟩ :=
    upInd_cases { s with idx := i, subidx := sub, req := s.req.clear } dev
  . rw [recv_upIni dev hwait, Ssdo.upIniInd]
    dsimp only
    rw [if_pos hac]
    exact ⟨[], takes_refused (by simp [hout]) (by simp [hout])⟩
  . refine ⟨data, ?_⟩
    obtain ⟨hbuf, hsize, hoffset⟩ := hreq
    have hsince : Event.read i sub data ∈ sinceReq (.read i sub data :: log) := by
      rw [sinceReq_cons rfl]
      exact List.mem_cons_self
    obtain ⟨-, htakes⟩ | ⟨s', hs', hrecv⟩ := upIni_accept dev hlog hidle hwait hind hbuf hsize hoffset
    . exact htakes
    . rw [hrecv]
      refine ⟨by simpa [Justified] using hlog, .inr ⟨?_, _, rfl, data, rfl, hsince⟩⟩
      exact hs'.imp (fun h => h.2.1) fun h => h.2

/-- An upload keeps to the rules of an exchange. -/
theorem upload_rules (i : UInt16) (sub : UInt8) : (upload i sub).Rules where
  ans_mono := by
    rintro v log e k x hreq hx
    have hmem {bytes : List UInt8} (h : Event.read i sub bytes ∈ sinceReq log)
        : Event.read i sub bytes ∈ sinceReq (e :: log) := by
      rw [sinceReq_cons hreq]
      exact List.mem_cons_of_mem _ h
    cases k with
    | zero =>
      obtain ⟨data, hx, hread⟩ := hx
      exact ⟨data, hx, hmem hread⟩
    | succ k => exact ⟨hx.1, hmem hx.2⟩
  active_mono _ h := h
  session_mono := by
    rintro v log e k s hreq h
    refine ⟨h.state, h.toggle, h.size, h.buf, h.nbyte, h.left, ?_⟩
    rw [sinceReq_cons hreq]
    exact List.mem_cons_of_mem _ h.read
  ans_zero h := h
  active_early := by
    rintro v v' log k c hk h
    have hzero : 7 * (k - 1) = 0 := by omega
    refine ⟨h.state, h.idx, h.subidx, h.toggle, h.dnCon, h.upCon, ?_, h.room⟩
    rw [h.upBuf, hzero, List.take_zero, List.take_zero]
  active_busy h := h.busy
  active_timeout h := ⟨h.state, h.idx, h.subidx, h.toggle, h.dnCon, h.upCon, h.upBuf, h.room⟩
  active_confirm := by
    rintro v log k c ac hactive hlog hopen hac
    exact ⟨_, _, hactive.confirm ac, rfl, rfl, rfl, hopen, hlog, fun h => absurd h hac⟩
  session_segment h := .inr h.state
  session_timeout h := ⟨h.state, h.toggle, h.size, h.buf, h.nbyte, h.left, h.read⟩
  req_first := by
    rintro x rfl
    rw [upReqMsg, length_iniFrame, cs_iniFrame]
    exact ⟨by omega, .inr (by decide)⟩
  req_later := by
    rintro k x rfl
    rw [upReqMsg, length_segFrame, cs_segFrame]
    exact ⟨by omega, .inr (toggleCs_read k (.inr rfl)).1⟩
  client_recv := by
    rintro v log sent k c x mem hlog hopen hactive hx hlo hle
    by_cases hk : k = sent
    . subst hk
      cases k with
      | zero =>
        obtain ⟨data, rfl, hread⟩ := hx
        obtain ⟨-, hquits⟩ | ⟨-, hnever⟩ | ⟨-, c', hover, -, hrecv⟩ | ⟨-, c', hrecv, hactive', -⟩ :=
          hactive.first mem data
        . exact .inl hquits
        . exact .inr (.inr (.inl hnever))
        . rw [hrecv]
          exact .inr (.inl ⟨hover, by simp [COut.frame], _, rfl, rfl, hopen, hlog, fun _ => hread⟩)
        . rw [hrecv]
          exact .inr (.inr (.inr (.inr ⟨rfl, hactive', _, rfl, rfl⟩)))
      | succ k =>
        obtain ⟨rfl, hread⟩ := hx
        obtain ⟨-, hquits⟩ | ⟨-, c', hover, -, hrecv⟩ | ⟨-, c', hrecv, hactive', -⟩ :=
          hactive.segment mem
        . exact .inl hquits
        . rw [upResMsg, hrecv]
          exact .inr (.inl ⟨hover, by simp [COut.frame], _, rfl, rfl, hopen, hlog, fun _ => hread⟩)
        . rw [upResMsg, hrecv]
          exact .inr (.inr (.inr (.inr ⟨rfl, hactive', _, rfl, rfl⟩)))
    . obtain rfl : sent = k + 1 := by omega
      obtain hquits | hstay := hactive.before mem hx
      . exact .inl hquits
      . exact .inr (.inr (.inr (.inl hstay)))
  server_first := by
    rintro log x s dev hlog hidle hwait rfl
    exact takes_upIni dev hlog hidle hwait
  server_next := by
    rintro v log k x s dev hlog hsession rfl
    exact hsession.next dev
  server_again := by
    rintro v log k x s dev hsession rfl
    exact .inr (hsession.again dev)

end LelyRtt.Wire
