import LelyRtt.Wire.Exchange

/-!
This module contains downloads: the requests and responses of the download of a value and what client
and server make of them.
-/

namespace LelyRtt.Wire

/-! ### The frames -/

/-- The value is sent in the initiate request or response. -/
def Expedited (data : List UInt8) : Prop := data.length ≠ 0 ∧ data.length ≤ 4

instance (data : List UInt8) : Decidable (Expedited data) := inferInstanceAs (Decidable (_ ∧ _))

/-- Segment `k` of a value. -/
def chunk (data : List UInt8) (k : Nat) : List UInt8 := (data.drop (7 * k)).take 7

/-- Segment `k` is the last one. -/
def lastChunk (data : List UInt8) (k : Nat) : Bool := data.length ≤ 7 * (k + 1)

/-- The frame with segment `k`: the command specifier of both directions is zero. -/
def segMsg (data : List UInt8) (k : Nat) : Msg :=
  segFrame (segCs 0x00 k (chunk data k).length (lastChunk data k)) (chunk data k)

/-- The requests of a download. -/
def dnReqMsg (i : UInt16) (sub : UInt8) (data : List UInt8) : Nat → Msg
  | 0 =>
    if Expedited data then iniFrame (ccsDnIniReq ||| iniSizeExpSet data.length) i sub data
    else iniFrame (ccsDnIniReq ||| iniSizeInd) i sub (Dcf.leBytes 4 data.length)
  | k + 1 => segMsg data k

/-- The responses of a download. -/
def dnResMsg (i : UInt16) (sub : UInt8) : Nat → Msg
  | 0 => iniFrame scsDnIniRes i sub []
  | k + 1 => segFrame (scsDnSegRes ||| toggled k) []

/-- Request `k` is the last one. -/
def DnLast (data : List UInt8) : Nat → Prop
  | 0 => Expedited data
  | k + 1 => data.length ≤ 7 * (k + 1)

/-- The client waits for response `k`. -/
structure DnActive (i : UInt16) (sub : UInt8) (data : List UInt8) (k : Nat) (c : Csdo) : Prop where
  state : c.state = if k = 0 then .dnIni else .dnSeg
  idx : c.idx = i
  subidx : c.subidx = sub
  size : c.size = data.length
  toggle : c.toggle = toggled k
  dnBuf : c.dnBuf = data
  dnCur : c.dnCur = if Expedited data then data.length else min (7 * k) data.length
  dnCon : c.dnCon = true
  segmented : k ≠ 0 → ¬ Expedited data
  reached : k ≤ 1 ∨ 7 * (k - 1) < data.length

/-- The server has answered request `k` of a segmented download. -/
structure DnSession (i : UInt16) (sub : UInt8) (data : List UInt8) (k : Nat) (s : Ssdo) : Prop where
  state : s.state = .dnSeg
  idx : s.idx = i
  subidx : s.subidx = sub
  toggle : s.toggle = toggled k
  size : s.req.size = data.length
  offset : s.req.offset + s.req.nbyte = 7 * k
  membuf : s.req.membuf.data = data.take (7 * k)
  room : data.length ≤ s.req.membuf.room
  left : k ≠ 0 → 7 * k < data.length

/-- The download of `data`. -/
def download (i : UInt16) (sub : UInt8) (data : List UInt8) : Exchange where
  request := some (.dnReq i sub data)
  req k x := x = dnReqMsg i sub data k
  ans _ log k x := x = dnResMsg i sub k ∧ (DnLast data k → .wrote i sub data ∈ sinceReq log)
  active _ _ k c := DnActive i sub data k c
  session _ _ k s := DnSession i sub data k s

variable {i : UInt16} {sub : UInt8} {data : List UInt8} {k : Nat} {c : Csdo} {s : Ssdo}

theorem length_chunk (data : List UInt8) (k : Nat)
    : (chunk data k).length = min 7 (data.length - 7 * k) := by
  simp [chunk]

theorem take_chunk (data : List UInt8) (k : Nat)
    : data.take (7 * k) ++ chunk data k = data.take (7 * (k + 1)) := by
  rw [chunk, ← List.take_add]
  rfl

theorem take_length_chunk (data : List UInt8) (k : Nat)
    : (data.drop (7 * k)).take (chunk data k).length = chunk data k := by
  rw [length_chunk, chunk, List.take_eq_take_iff, List.length_drop]
  omega

theorem toggled_add_two (k : Nat) : toggled (k + 2) = toggled k := by
  simp [toggled]

/-! ### The client -/

namespace Csdo

/-- The download goes on with the next segment. -/
theorem enter_dnSeg_send (h : c.state ≠ .abort)
    (hn : c.size - c.dnCur ≠ 0 ∨ (c.size = 0 ∧ c.toggle = 0))
    : enter { sdo := c, next := some .dnSeg }
      = ({ c.armTimer with
          state := .dnSeg, toggle := c.toggle ^^^ segToggle,
          dnCur := c.dnCur + min (c.size - c.dnCur) 7 },
        [({ c.armTimer with state := .dnSeg }.sendDnSegReq (min (c.size - c.dnCur) 7)
          (c.size - c.dnCur ≤ 7)).2]) := by
  rw [enter, enterLoop]
  dsimp only
  rw [onLeave_of_ne h]
  simp only [onEnter, if_pos hn, List.nil_append]
  rfl

/-- The download is complete. -/
theorem enter_dnSeg_end (h : c.state ≠ .abort)
    (hn : ¬ (c.size - c.dnCur ≠ 0 ∨ (c.size = 0 ∧ c.toggle = 0)))
    : enter { sdo := c, next := some .dnSeg } = (c.ended 0, c.confirm 0) := by
  have hne : { c with state := .dnSeg }.state ≠ .abort := by
    intro hstate
    cases hstate
  have hend := @enterLoop_abort { c with state := .dnSeg } 0 hne 0 []
  rw [enter, enterLoop]
  dsimp only
  rw [onLeave_of_ne h]
  simp only [onEnter, if_neg hn, List.nil_append]
  exact hend

/-- The initiate request, and what has been sent with it. -/
theorem sendDnReq_eq (hidx : c.idx = i) (hsubidx : c.subidx = sub) (hsize : c.size = data.length)
    (hbuf : c.dnBuf = data) (hcur : c.dnCur = 0)
    : c.sendDnReq = ({ c with dnCur := if Expedited data then data.length else min (7 * 0) data.length },
        .send (dnReqMsg i sub data 0)) := by
  subst hidx hsubidx hbuf
  by_cases hexp : Expedited c.dnBuf
  . have hsmall : c.size ≠ 0 ∧ c.size ≤ 4 := by rwa [hsize]
    rw [sendDnReq, if_pos hsmall, if_pos hexp, dnReqMsg, if_pos hexp, hsize, hcur, List.drop_zero,
      List.take_length, Nat.zero_add]
  . have hlarge : ¬ (c.size ≠ 0 ∧ c.size ≤ 4) := by rwa [hsize]
    have hsame : { c with dnCur := min (7 * 0) c.dnBuf.length } = c := by
      rw [Nat.mul_zero, Nat.zero_min, ← hcur]
    rw [sendDnReq, if_neg hlarge, if_neg hexp, dnReqMsg, if_neg hexp, hsame, hsize]

theorem dnReq_some {r : Csdo × List COut} (h : c.dnReq i sub data = some r)
    (hsize : data.length < 2 ^ 32)
    : r.2 = [.send (dnReqMsg i sub data 0)] ∧ DnActive i sub data 0 r.1 := by
  unfold dnReq at h
  split at h
  . cases h
  . next hidle =>
    have hwait : c.state = .wait := by
      rw [not_or, not_not] at hidle
      exact hidle.2
    have hne : c.state ≠ .abort := by
      rw [hwait]
      intro habort
      cases habort
    have hsent := @sendDnReq_eq i sub data { c with
      ac := 0, idx := i, subidx := sub, size := data.length % 2 ^ 32, toggle := 0, dnBuf := data,
      dnCur := 0, dnCon := true, upCon := false }.armTimer rfl rfl
      (Nat.mod_eq_of_lt hsize) rfl rfl
    dsimp only at h
    rw [hsent] at h
    cases h
    rw [enter_ini (by exact hne) (.inl rfl)]
    exact ⟨rfl, rfl, rfl, rfl, Nat.mod_eq_of_lt hsize, rfl, rfl, rfl, rfl, fun h => absurd rfl h,
      .inl (Nat.zero_le 1)⟩

end Csdo

namespace DnActive

theorem busy (h : DnActive i sub data k c) : c.Busy := by
  have hstate := h.state
  split at hstate
  . exact .inl hstate
  . exact .inr (.inl hstate)

theorem confirm (h : DnActive i sub data k c) (ac : BitVec 32) : c.confirm ac = [.dnCon i sub ac] := by
  rw [Csdo.confirm, if_pos h.dnCon, h.idx, h.subidx]

/-- The frame of the next segment. -/
theorem sendDnSegReq (h : DnActive i sub data k c) (hexp : ¬ Expedited data)
    (hk : 7 * k ≤ data.length)
    : ({ c.armTimer with state := .dnSeg }.sendDnSegReq (min (c.size - c.dnCur) 7)
        (c.size - c.dnCur ≤ 7)).2 = .send (segMsg data k) := by
  have hcur : c.dnCur = 7 * k := by
    rw [h.dnCur, if_neg hexp, Nat.min_eq_left hk]
  have hlen : min (data.length - 7 * k) 7 = (chunk data k).length := by
    rw [length_chunk, Nat.min_comm]
  have hlast : decide (data.length - 7 * k ≤ 7) = lastChunk data k := by
    rw [lastChunk]
    congr 1
    apply propext
    omega
  simp only [Csdo.sendDnSegReq, Csdo.armTimer, h.toggle, h.dnBuf, h.size, hcur, hlen, hlast,
    take_length_chunk]
  rfl

/-- The answer that the client waits for takes the download to the next segment or to its end. -/
theorem goes (h : DnActive i sub data k c)
    : (Csdo.enter { sdo := c, next := some .dnSeg } = (c.ended 0, [.dnCon i sub 0]) ∧ DnLast data k)
      ∨ (¬ DnLast data k ∧ ∃ c',
        Csdo.enter { sdo := c, next := some .dnSeg } = (c', [.send (segMsg data k)])
          ∧ DnActive i sub data (k + 1) c') := by
  have hne := h.busy.ne_abort
  have hsize := h.size
  have hcur := h.dnCur
  have hreached := h.reached
  by_cases hexp : Expedited data
  . have hk : k = 0 := Decidable.byContradiction fun hk => h.segmented hk hexp
    have hpos := hexp.1
    rw [if_pos hexp] at hcur
    rw [Csdo.enter_dnSeg_end hne (by omega), h.confirm]
    exact .inl ⟨rfl, by rwa [hk]⟩
  . rw [if_neg hexp] at hcur
    by_cases hsend : 7 * k < data.length ∨ k = 0
    . have hk : 7 * k ≤ data.length := by omega
      have hn : c.size - c.dnCur ≠ 0 ∨ (c.size = 0 ∧ c.toggle = 0) := by
        by_cases hlt : 7 * k < data.length
        . left
          omega
        . have hk0 : k = 0 := by omega
          right
          rw [h.toggle, hk0, hsize]
          exact ⟨by omega, rfl⟩
      have hmore : ¬ DnLast data k := by
        cases k with
        | zero => exact hexp
        | succ k =>
          show ¬ data.length ≤ 7 * (k + 1)
          omega
      refine .inr ⟨hmore, _, by rw [Csdo.enter_dnSeg_send hne hn, h.sendDnSegReq hexp hk], ?_⟩
      exact {
        state := rfl
        idx := h.idx
        subidx := h.subidx
        size := hsize
        toggle := by rw [h.toggle, toggled_succ]
        dnBuf := h.dnBuf
        dnCur := by
          rw [if_neg hexp]
          show c.dnCur + min (c.size - c.dnCur) 7 = min (7 * (k + 1)) data.length
          omega
        dnCon := h.dnCon
        segmented := fun _ => hexp
        reached := by omega }
    . have hn : ¬ (c.size - c.dnCur ≠ 0 ∨ (c.size = 0 ∧ c.toggle = 0)) := by
        rintro (hn | ⟨hzero, htoggle⟩)
        . omega
        . have hk : k = 1 := by omega
          rw [h.toggle, hk] at htoggle
          exact absurd htoggle (by decide)
      rw [Csdo.enter_dnSeg_end hne hn, h.confirm]
      refine .inl ⟨rfl, ?_⟩
      cases k with
      | zero => omega
      | succ k =>
        show data.length ≤ 7 * (k + 1)
        omega

/-- The answer that the client waits for. -/
theorem recv (h : DnActive i sub data k c) (mem : Mem)
    : c.emitRecv mem (dnResMsg i sub k) = Csdo.enter { sdo := c, next := some .dnSeg } := by
  have hstate := h.state
  cases k with
  | zero =>
    have hother : c.otherObject (dnResMsg i sub 0) = false := by
      simp [Csdo.otherObject, dnResMsg, h.idx, h.subidx]
    have hcs : (dnResMsg i sub 0).cs &&& csMask = scsDnIniRes := by
      rw [dnResMsg, cs_iniFrame]
      decide
    have hlen : ¬ (dnResMsg i sub 0).length < 1 := by simp [dnResMsg]
    rw [Csdo.emitRecv, hstate]
    simp only [if_true, Csdo.dnIniOnRecv, if_neg hlen, hcs, hother]
    rfl
  | succ k =>
    have hcs : (dnResMsg i sub (k + 1)).cs = scsDnSegRes ||| toggled k := rfl
    obtain ⟨hmask, htoggle⟩ := toggleCs_read k (.inl (rfl : scsDnSegRes = 0x20))
    have hlen : ¬ (dnResMsg i sub (k + 1)).length < 1 := by simp [dnResMsg]
    rw [Csdo.emitRecv, hstate, if_neg (Nat.succ_ne_zero k)]
    simp only [Csdo.dnSegOnRecv, if_neg hlen, hcs, hmask, htoggle, h.toggle, if_true]
    rw [if_neg (toggled_ne_succ k)]

/-- The answer before that one: the command specifier or the toggle bit is not the right one. -/
theorem recv_before (h : DnActive i sub data (k + 1) c) (mem : Mem)
    : c.Quits (c.emitRecv mem (dnResMsg i sub k)) := by
  have hne := h.busy.ne_abort
  rw [Csdo.emitRecv, h.state, if_neg (Nat.succ_ne_zero k)]
  cases k with
  | zero =>
    have hcs : (dnResMsg i sub 0).cs &&& csMask = scsDnIniRes := by
      rw [dnResMsg, cs_iniFrame]
      decide
    have hlen : ¬ (dnResMsg i sub 0).length < 1 := by simp [dnResMsg]
    simp only [Csdo.dnSegOnRecv, if_neg hlen, hcs]
    exact Csdo.quits_abortRes hne (by decide)
  | succ k =>
    have hcs : (dnResMsg i sub (k + 1)).cs = scsDnSegRes ||| toggled k := rfl
    obtain ⟨hmask, htoggle⟩ := toggleCs_read k (.inl (rfl : scsDnSegRes = 0x20))
    have hlen : ¬ (dnResMsg i sub (k + 1)).length < 1 := by simp [dnResMsg]
    simp only [Csdo.dnSegOnRecv, if_neg hlen, hcs, hmask, htoggle, h.toggle, if_true]
    rw [if_pos (toggled_add_two k).symm]
    exact Csdo.quits_abortRes hne (by decide)

end DnActive

/-! ### The server -/

/-- The request that the server makes of segment `k`. -/
def segReq (s : Ssdo) (data : List UInt8) (k : Nat) : SdoReq :=
  { s.req with buf := chunk data k, offset := s.req.offset + s.req.nbyte }

theorem segReq_last (h : DnSession i sub data k s) : (segReq s data k).last = lastChunk data k := by
  have hleft := h.left
  simp only [SdoReq.last, segReq, SdoReq.nbyte, h.size, length_chunk, lastChunk]
  have hoffset := h.offset
  rw [SdoReq.nbyte] at hoffset
  rw [hoffset]
  congr 1
  apply propext
  by_cases hk : k = 0
  . subst hk
    omega
  . have := hleft hk
    omega

/-- The value is complete with its last segment, and is what was sent. -/
theorem segReq_dnBuf (h : DnSession i sub data k s) (mem : Mem)
    : ((segReq s data k).dnBuf mem).1.size = data.length
      ∧ ((segReq s data k).dnBuf mem).1.offset = 7 * k
      ∧ ((segReq s data k).dnBuf mem).1.buf = chunk data k
      ∧ ((lastChunk data k = true ∧ ((segReq s data k).dnBuf mem).2 = .all data)
        ∨ (lastChunk data k = false ∧ ((segReq s data k).dnBuf mem).2 = .more
          ∧ ((segReq s data k).dnBuf mem).1.membuf.data = data.take (7 * (k + 1))
          ∧ data.length ≤ ((segReq s data k).dnBuf mem).1.membuf.room)) := by
  have hlast := segReq_last h
  have hoffset : (segReq s data k).offset = 7 * k := h.offset
  have hsize : (segReq s data k).size = data.length := h.size
  have hroom := h.room
  have hleft := h.left
  have hlen := length_chunk data k
  have hlastLen : lastChunk data k = true → data.length ≤ 7 * (k + 1) := of_decide_eq_true
  -- The copy of the segment to a buffer that holds those before it.
  have hcopy (buf : Membuf) (hdata : buf.data = data.take (7 * k)) (hbuf : buf.room = s.req.membuf.room)
      : ((segReq s data k).dnCopy buf).1.size = data.length
        ∧ ((segReq s data k).dnCopy buf).1.offset = 7 * k
        ∧ ((segReq s data k).dnCopy buf).1.buf = chunk data k
        ∧ ((lastChunk data k = true ∧ ((segReq s data k).dnCopy buf).2 = .all data)
          ∨ (lastChunk data k = false ∧ ((segReq s data k).dnCopy buf).2 = .more
            ∧ ((segReq s data k).dnCopy buf).1.membuf.data = data.take (7 * (k + 1))
            ∧ data.length ≤ ((segReq s data k).dnCopy buf).1.membuf.room)) := by
    have hbuflen : buf.data.length = min (7 * k) data.length := by rw [hdata, List.length_take]
    have hfits : ¬ buf.capacity < (segReq s data k).nbyte := by
      simp only [Membuf.capacity, segReq, SdoReq.nbyte, hlen]
      omega
    have hwrite : (buf.write (chunk data k)).data = data.take (7 * (k + 1)) := by
      rw [Membuf.write_data (by omega), hdata, take_chunk]
    have hlast' : { segReq s data k with membuf := buf.write (segReq s data k).buf }.last
        = lastChunk data k := hlast
    rw [SdoReq.dnCopy, if_neg hfits]
    dsimp only
    rw [hlast']
    split
    . next hl =>
      refine ⟨hsize, hoffset, rfl, .inl ⟨hl, ?_⟩⟩
      show DnBuf.all (((buf.write (chunk data k)).data).take (segReq s data k).size) = _
      have hle := hlastLen hl
      rw [hwrite, hsize, List.take_of_length_le hle, List.take_length]
    . next hl =>
      refine ⟨hsize, hoffset, rfl, .inr ⟨Bool.eq_false_iff.2 hl, rfl, hwrite, ?_⟩⟩
      show data.length ≤ (buf.write (chunk data k)).room
      rw [Membuf.write_room, hbuf]
      exact hroom
  rw [SdoReq.dnBuf, hlast]
  by_cases hk : k = 0
  . subst hk
    have hfirst : (segReq s data 0).first = true := by rw [SdoReq.first, hoffset]; rfl
    rw [hfirst, Bool.true_and]
    split
    . next hl =>
      have hle := hlastLen hl
      refine ⟨hsize, hoffset, rfl, .inl ⟨hl, ?_⟩⟩
      show DnBuf.all ((chunk data 0).take (segReq s data 0).size) = _
      rw [hsize, chunk, Nat.mul_zero, List.drop_zero, List.take_of_length_le hle, List.take_length]
    . have hreserve : (segReq s data 0).membuf.clear.reserve (segReq s data 0).size mem
          = .room (segReq s data 0).membuf.clear := by
        refine Membuf.reserve_of_room mem ?_
        rw [hsize, Membuf.clear_data, Membuf.clear_room, List.length_nil, Nat.zero_add]
        exact hroom
      rw [if_pos rfl, hreserve]
      exact hcopy _ (by simp) rfl
  . have hlt := hleft hk
    have hfirst : (segReq s data k).first = false := by
      rw [SdoReq.first, hoffset]
      exact decide_eq_false (by omega)
    have hmembuf : (segReq s data k).membuf.data.length = 7 * k := by
      show s.req.membuf.data.length = 7 * k
      rw [h.membuf, List.length_take]
      omega
    rw [hfirst, Bool.false_and, if_neg Bool.false_ne_true, if_neg Bool.false_ne_true,
      if_neg (by rw [hmembuf, hoffset]; omega), hmembuf, hoffset, Nat.sub_self, Membuf.seekBack_zero]
    exact hcopy _ h.membuf rfl

theorem dnBuf_error {req : SdoReq} {mem : Mem} {ac : BitVec 32} (h : (req.dnBuf mem).2 = .error ac)
    : ac ≠ 0 := by
  have hcopy (buf : Membuf) (hc : (req.dnCopy buf).2 = .error ac) : ac ≠ 0 := by
    unfold SdoReq.dnCopy at hc
    split at hc
    . cases hc
      decide
    . dsimp only at hc
      split at hc <;> cases hc
  unfold SdoReq.dnBuf at h
  split at h
  . cases h
  . split at h
    . split at h
      . cases h
        decide
      . cases h
      . exact hcopy _ h
    . split at h
      . cases h
        decide
      . exact hcopy _ h

/-- The object dictionary refuses what it is given, or takes it; a complete value is then written. -/
theorem dnInd_cases (s : Ssdo) (dev : Dev)
    : ((s.dnInd dev).2.1 ≠ some 0 ∧ (s.dnInd dev).2.2 = [])
      ∨ ((s.dnInd dev).2.1 = some 0 ∧ (s.dnInd dev).1 = { s with req := (s.req.dnBuf dev.mem).1 }
        ∧ (((s.req.dnBuf dev.mem).2 = .more ∧ (s.dnInd dev).2.2 = [])
          ∨ ∃ bytes, (s.req.dnBuf dev.mem).2 = .all bytes
            ∧ (s.dnInd dev).2.2 = [.wrote s.idx s.subidx bytes])) := by
  unfold Ssdo.dnInd
  split
  . next hcheck => exact .inl ⟨fun heq => hcheck (Option.some.inj heq), rfl⟩
  . dsimp only
    split
    . exact .inl ⟨(fun hsome => by cases hsome), rfl⟩
    . next ac hac => exact .inl ⟨fun heq => dnBuf_error hac (Option.some.inj heq), rfl⟩
    . next hmore => exact .inr ⟨rfl, rfl, .inl ⟨hmore, rfl⟩⟩
    . next bytes hbytes =>
      by_cases hac : dev.write s.idx s.subidx bytes = 0
      . right
        rw [if_pos hac]
        exact ⟨congrArg some hac, rfl, .inr ⟨bytes, hbytes, rfl⟩⟩
      . left
        rw [if_neg hac]
        exact ⟨fun heq => hac (Option.some.inj heq), rfl⟩

/-- The object dictionary takes what it is given when its checks pass. -/
theorem dnInd_zero {dev : Dev} (hcheck : dev.dnCheck s.idx s.subidx = 0)
    (h : (s.req.dnBuf dev.mem).2 = .more
      ∨ ((s.req.dnBuf dev.mem).2 = .all data ∧ dev.write s.idx s.subidx data = 0))
    : (s.dnInd dev).2.1 = some 0 := by
  rw [Ssdo.dnInd, if_neg (by simp [hcheck])]
  dsimp only
  rcases h with h | ⟨h, hwrite⟩
  . rw [h]
  . rw [h]
    exact congrArg some hwrite

/-- An indication that is refused ends the transfer, or the server never comes back from it. -/
theorem takes_refused {X : Exchange} {log : List Event} {v : List UInt8}
    {ind : Ssdo × Option (BitVec 32) × List SOut}
    (hout : ∀ e ∈ ind.2.2.filterMap SOut.event, Justified log e)
    (hframes : ind.2.2.filterMap SOut.frame = []) : X.Takes log v k (Ssdo.refuse ind) := by
  unfold Ssdo.refuse
  split
  . exact ⟨hout, .inl ⟨.inr rfl, by simp [hframes]⟩⟩
  . next ac _ =>
    constructor
    . rw [List.filterMap_append]
      intro e he
      rcases List.mem_append.1 he with he | he
      . exact hout e he
      . cases he
    . left
      refine ⟨.inl (Ssdo.abortInd_idle _), ?_⟩
      rw [List.filterMap_append, hframes]
      simp only [Ssdo.abortRes, Ssdo.sendAbort, List.filterMap_cons, List.filterMap_nil,
        SOut.frame_send, List.nil_append, List.mem_singleton, forall_eq]
      exact isAbort_iniFrame _ _ _

/-- All checks of the next segment pass. -/
theorem DnSession.recv (h : DnSession i sub data k s) (dev : Dev)
    : s.emitRecv dev (segMsg data k)
      = { s with req := segReq s data k }.dnSegInd dev (lastChunk data k) := by
  have hlen : (segMsg data k).length = 8 := length_segFrame _ _
  have hchunk : (chunk data k).length ≤ 7 := by
    rw [length_chunk]
    omega
  obtain ⟨hmask, htoggle, hsize, hlast⟩ := segCs_read k (lastChunk data k) hchunk
  have hcs : (segMsg data k).cs = segCs 0x00 k (chunk data k).length (lastChunk data k) := rfl
  have hdata : ((segMsg data k).drop 1).take (chunk data k).length = chunk data k :=
    drop_segFrame _ _ rfl hchunk
  have hoffset := h.offset
  have hleft := h.left
  have hfits : ¬ s.req.size < s.req.offset + s.req.nbyte + (chunk data k).length := by
    rw [h.size, hoffset, length_chunk]
    by_cases hk : k = 0
    . subst hk
      omega
    . have := hleft hk
      omega
  have hlast' : decide ((segMsg data k).cs &&& segLast ≠ 0) = lastChunk data k := by
    rw [hcs]
    exact Bool.eq_iff_iff.2 (decide_eq_true_iff.trans hlast)
  have hrecv : s.emitRecv dev (segMsg data k) = s.dnSegOnRecv dev (segMsg data k) := by
    rw [Ssdo.emitRecv, h.state]
  rw [hrecv]
  dsimp only [Ssdo.dnSegOnRecv]
  rw [if_neg (by omega), hlast', hcs, if_pos (show _ = ccsDnSegReq from hmask), if_neg (by rw [htoggle, h.toggle]; simp), hsize,
    if_neg (by omega), if_neg hfits, hdata]
  have hreqLast := segReq_last h
  rw [segReq] at hreqLast
  rw [hreqLast, Bool.and_not_self, if_neg Bool.false_ne_true]
  rfl

/-- The server accepts the next segment of a download, which completes the value or does not. -/
theorem DnSession.accept (dev : Dev) (h : DnSession i sub data k s)
    (hac : ({ s with req := segReq s data k }.dnInd dev).2.1 = some 0)
    : (lastChunk data k = true ∧ ∃ s', s'.Idle ∧ s'.state = .wait ∧ s.emitRecv dev (segMsg data k)
        = (s', [.wrote i sub data, .send (dnResMsg i sub (k + 1))]))
      ∨ (lastChunk data k = false ∧ ∃ s', DnSession i sub data (k + 1) s'
        ∧ s.emitRecv dev (segMsg data k) = (s', [.send (dnResMsg i sub (k + 1))])) := by
  obtain ⟨hbufSize, hbufOffset, hbufBuf, hbuf⟩ := segReq_dnBuf h dev.mem
  have hleft := h.left
  rw [h.recv, Ssdo.dnSegInd]
  dsimp only
  obtain ⟨hne, -⟩ | ⟨-, hind, hout⟩ := dnInd_cases { s with req := segReq s data k } dev
  . exact absurd hac hne
  . rw [if_neg (by simp [hac])]
    have htoggle : ({ s with req := segReq s data k }.dnInd dev).1.toggle = toggled k := by
      rw [hind]
      exact h.toggle
    rw [htoggle]
    obtain ⟨hl, hbytes⟩ | ⟨hl, hmore, hdata, hroom⟩ := hbuf
    . obtain ⟨hmore, -⟩ | ⟨bytes, hall, hout⟩ := hout
      . rw [hbytes] at hmore
        cases hmore
      . rw [hbytes] at hall
        cases hall
        rw [if_pos hl, hout, h.idx, h.subidx]
        exact .inl ⟨hl, _, Ssdo.abortInd_idle _, rfl, rfl⟩
    . obtain ⟨-, hout⟩ | ⟨bytes, hall, -⟩ := hout
      . rw [if_neg (by simp [hl]), hout]
        have hlt : 7 * (k + 1) < data.length := Nat.lt_of_not_le (of_decide_eq_false hl)
        refine .inr ⟨hl, _, ?_, rfl⟩
        rw [hind]
        exact {
          state := h.state
          idx := h.idx
          subidx := h.subidx
          toggle := (toggled_succ k).symm
          size := hbufSize
          offset := by
            show ((segReq s data k).dnBuf dev.mem).1.offset
              + ((segReq s data k).dnBuf dev.mem).1.buf.length = 7 * (k + 1)
            rw [hbufOffset, hbufBuf, length_chunk]
            omega
          membuf := hdata
          room := hroom
          left := fun _ => hlt }
      . rw [hmore] at hall
        cases hall

/-- The server accepts the next segment of a download, or aborts. -/
theorem DnSession.next {log : List Event} (v : List UInt8) (dev : Dev)
    (hlog : lastReq log = some (.dnReq i sub data)) (h : DnSession i sub data k s)
    : (download i sub data).Takes log v (k + 1) (s.emitRecv dev (segMsg data k)) := by
  by_cases hac : ({ s with req := segReq s data k }.dnInd dev).2.1 = some 0
  . obtain ⟨-, s', hidle, -, hrecv⟩ | ⟨hl, s', hsession, hrecv⟩ := h.accept dev hac
    . rw [hrecv]
      refine ⟨by simpa [Justified] using hlog, .inr ⟨.inl hidle, _, rfl, rfl, fun _ => ?_⟩⟩
      simp [sinceReq, Event.isReq]
    . rw [hrecv]
      refine ⟨by simp, .inr ⟨.inr hsession, _, rfl, rfl, fun hlast => ?_⟩⟩
      have hlong : ¬ data.length ≤ 7 * (k + 1) := of_decide_eq_false hl
      exact absurd hlast hlong
  . obtain ⟨-, hout⟩ | ⟨hzero, -⟩ := dnInd_cases { s with req := segReq s data k } dev
    . rw [h.recv, Ssdo.dnSegInd]
      dsimp only
      rw [if_pos hac]
      exact takes_refused (by simp [hout]) (by simp [hout])
    . exact absurd hzero hac

/-- The server knows a segment that it has had by its toggle bit, and the initiate request by its
command specifier. -/
theorem DnSession.again (dev : Dev) (h : DnSession i sub data k s)
    : (s.emitRecv dev (dnReqMsg i sub data k) = (s, []))
      ∨ ∃ ac, s.emitRecv dev (dnReqMsg i sub data k) = s.abortRes ac := by
  cases k with
  | zero =>
    right
    refine ⟨acNoCs, Ssdo.recv_noCs dev ?_ (.inr (.inl ⟨h.state, .inl ?_⟩))⟩
    . rw [dnReqMsg]
      split <;> simp
    . rw [dnReqMsg]
      split
      . next hexp =>
        rw [cs_iniFrame]
        exact (expCs_read (.inl rfl) (Nat.pos_of_ne_zero hexp.1) hexp.2).1
      . rw [cs_iniFrame]
        decide
  | succ k =>
    left
    have hchunk : (chunk data k).length ≤ 7 := by
      rw [length_chunk]
      omega
    obtain ⟨hmask, htoggle, -, -⟩ := segCs_read k (lastChunk data k) hchunk
    have hlen : (dnReqMsg i sub data (k + 1)).length = 8 := length_segFrame _ _
    have hcs : (dnReqMsg i sub data (k + 1)).cs
      = segCs 0x00 k (chunk data k).length (lastChunk data k) := rfl
    rw [Ssdo.emitRecv, h.state]
    dsimp only [Ssdo.dnSegOnRecv]
    rw [if_neg (by omega), hcs, if_pos (show _ = ccsDnSegReq from hmask), htoggle, h.toggle,
      if_pos (toggled_ne_succ k)]

/-- The request that the server makes of the initiate request. -/
def iniReq (s : Ssdo) (data : List UInt8) : SdoReq :=
  { s.req.clear with size := data.length, buf := if Expedited data then data else [] }

/-- All checks of the initiate request pass. -/
theorem recv_dnIni (dev : Dev) (hwait : s.state = .wait) (hsize : data.length < 2 ^ 32)
    : s.emitRecv dev (dnReqMsg i sub data 0)
      = { s with idx := i, subidx := sub, req := iniReq s data }.dnIniInd dev (Expedited data) := by
  have hrecv : s.emitRecv dev (dnReqMsg i sub data 0) = s.waitOnRecv dev (dnReqMsg i sub data 0) := by
    rw [Ssdo.emitRecv, hwait]
  rw [hrecv, dnReqMsg]
  by_cases hexp : Expedited data
  . obtain ⟨hmask, hbit, hind, hget⟩ :=
      expCs_read (.inl (rfl : ccsDnIniReq = 0x20)) (Nat.pos_of_ne_zero hexp.1) hexp.2
    rw [if_pos hexp]
    dsimp only [Ssdo.waitOnRecv, Ssdo.dnIniOnRecv]
    rw [length_iniFrame, cs_iniFrame, hmask, if_neg (by omega), if_pos rfl, if_neg (by omega),
      if_neg (by omega), decide_eq_true hbit, if_pos rfl, if_pos rfl, if_pos hind, hget, data_iniFrame,
      take_pad hexp.2, idx_iniFrame, subidx_iniFrame, iniReq, if_pos hexp, decide_eq_true hexp]
  . rw [if_neg hexp]
    dsimp only [Ssdo.waitOnRecv, Ssdo.dnIniOnRecv]
    have hmask : (ccsDnIniReq ||| iniSizeInd) &&& csMask = ccsDnIniReq := by decide
    have hbit : decide ((ccsDnIniReq ||| iniSizeInd) &&& iniSizeExp ≠ 0) = false := by decide
    have hind : (ccsDnIniReq ||| iniSizeInd) &&& iniSizeInd ≠ 0 := by decide
    rw [length_iniFrame, cs_iniFrame, hmask, if_neg (by omega), if_pos rfl, if_neg (by omega),
      if_neg (by omega), hbit, if_neg Bool.false_ne_true, if_neg Bool.false_ne_true, if_pos hind,
      data_iniFrame, leNat_pad hsize, idx_iniFrame, subidx_iniFrame, iniReq, if_neg hexp,
      decide_eq_false hexp]

/-- An expedited or empty value is complete with the initiate request, any other is to follow. -/
theorem iniReq_dnBuf (s : Ssdo) (data : List UInt8) (mem : Mem) (hsize : data.length < 2 ^ 32)
    : (((iniReq s data).dnBuf mem).2 = .all data ∧ data.length ≤ 4
        ∧ ((iniReq s data).dnBuf mem).1 = iniReq s data)
      ∨ (¬ Expedited data ∧ ((iniReq s data).dnBuf mem).2 = .more
        ∧ ((iniReq s data).dnBuf mem).1.size = data.length
        ∧ ((iniReq s data).dnBuf mem).1.offset = 0 ∧ ((iniReq s data).dnBuf mem).1.buf = []
        ∧ ((iniReq s data).dnBuf mem).1.membuf.data = []
        ∧ data.length ≤ ((iniReq s data).dnBuf mem).1.membuf.room)
      ∨ (mem.ok = false ∧ ∃ ac, ((iniReq s data).dnBuf mem).2 = .error ac)
      ∨ (2 ^ (mem.width - 1) < data.length ∧ ((iniReq s data).dnBuf mem).2 = .never) := by
  have hfirst : (iniReq s data).first = true := rfl
  have hlast : (iniReq s data).last = decide (data.length ≤ 4) := by
    simp only [SdoReq.last, iniReq, SdoReq.clear, SdoReq.nbyte, Nat.zero_add]
    congr 1
    apply propext
    split
    . next hexp => exact iff_of_true (Nat.le_refl _) hexp.2
    . next hexp =>
      simp only [Expedited, not_and] at hexp
      rw [List.length_nil]
      omega
  rw [SdoReq.dnBuf, hfirst, Bool.true_and, hlast]
  by_cases hle : data.length ≤ 4
  . left
    rw [if_pos (decide_eq_true hle)]
    refine ⟨?_, hle, rfl⟩
    show DnBuf.all (List.take data.length (if Expedited data then data else [])) = _
    split
    . rw [List.take_length]
    . next hexp =>
      have hnil : data = [] := by
        refine List.length_eq_zero_iff.1 (Decidable.byContradiction fun hne => hexp ⟨hne, hle⟩)
      rw [hnil]
      rfl
  . right
    have hexp : ¬ Expedited data := fun h => hle h.2
    rw [if_neg (by simpa using hle), if_pos rfl]
    have hfits : (iniReq s data).membuf.clear.data.length + (iniReq s data).size < 2 ^ mem.width := by
      rw [Membuf.clear_data, List.length_nil, Nat.zero_add]
      exact Nat.lt_of_lt_of_le hsize (Nat.pow_le_pow_right (by omega) mem.wide)
    cases hreserve : (iniReq s data).membuf.clear.reserve (iniReq s data).size mem with
    | noMem => exact .inr (.inl ⟨Membuf.reserve_noMem hreserve, acNoMem, rfl⟩)
    | never =>
      have hlarge := Membuf.reserve_never hfits hreserve
      rw [Membuf.clear_data, List.length_nil, Nat.zero_add] at hlarge
      exact .inr (.inr ⟨hlarge, rfl⟩)
    | room buf =>
      obtain ⟨hdata, hroom⟩ := Membuf.reserve_data hfits hreserve
      have hbuf : (iniReq s data).buf = [] := if_neg hexp
      have hsize : (iniReq s data).size = data.length := rfl
      rw [Membuf.clear_data] at hdata
      rw [Membuf.clear_data, List.length_nil, Nat.zero_add, hsize] at hroom
      have hwrite : (buf.write (iniReq s data).buf).data = [] := by
        rw [Membuf.write_data (by rw [hbuf, hdata]; simp), hbuf, hdata]
        rfl
      have hlast' : { iniReq s data with membuf := buf.write (iniReq s data).buf }.last = false := by
        refine Eq.trans ?_ (hlast.trans (decide_eq_false hle))
        rfl
      left
      simp only [SdoReq.dnCopy]
      rw [if_neg (by simp only [SdoReq.nbyte, hbuf, List.length_nil]; omega), hlast',
        if_neg Bool.false_ne_true]
      exact ⟨hexp, rfl, rfl, rfl, hbuf, hwrite, hroom⟩

/-- The server accepts the initiate request of a download, which is all of a short value. -/
theorem dnIni_accept (dev : Dev) (hidle : s.Idle) (hwait : s.state = .wait)
    (hsize : data.length < 2 ^ 32)
    (hac : ({ s with idx := i, subidx := sub, req := iniReq s data }.dnInd dev).2.1 = some 0)
    : ∃ s', ((Expedited data ∧ s'.Idle ∧ s'.state = .wait)
        ∨ (¬ Expedited data ∧ DnSession i sub data 0 s'))
      ∧ s.emitRecv dev (dnReqMsg i sub data 0) = (s',
        (if data.length ≤ 4 then [.wrote i sub data] else []) ++ [.send (dnResMsg i sub 0)]) := by
  rw [recv_dnIni dev hwait hsize, Ssdo.dnIniInd]
  dsimp only
  obtain ⟨hne, -⟩ | ⟨-, hind, hout⟩ :=
    dnInd_cases { s with idx := i, subidx := sub, req := iniReq s data } dev
  . exact absurd hac hne
  . rw [if_neg (by simp [hac])]
    have hres : ({ s with idx := i, subidx := sub, req := iniReq s data }.dnInd dev).1.sendDnIniRes
        = .send (dnResMsg i sub 0) := by
      rw [hind]
      rfl
    rw [hres]
    obtain ⟨hall, hle, hbuf⟩ | ⟨hexp, hmore, hrest⟩ | ⟨-, ac, herror⟩ | ⟨-, hnever⟩ :=
      iniReq_dnBuf s data dev.mem hsize
    . obtain ⟨hmore, -⟩ | ⟨bytes, hbytes, hout⟩ := hout
      . rw [hall] at hmore
        cases hmore
      . rw [hall] at hbytes
        cases hbytes
        rw [hout, if_pos hle]
        by_cases hexp : Expedited data
        . rw [if_pos (decide_eq_true hexp)]
          exact ⟨_, .inl ⟨hexp, Ssdo.abortInd_idle _, rfl⟩, rfl⟩
        . rw [if_neg (by simpa using hexp)]
          have hzero : data.length = 0 := Decidable.byContradiction fun hne => hexp ⟨hne, hle⟩
          refine ⟨_, .inr ⟨hexp, ?_⟩, rfl⟩
          rw [hind, hbuf]
          exact {
            state := rfl
            idx := rfl
            subidx := rfl
            toggle := hidle.toggle
            size := rfl
            offset := by simp [Ssdo.armTimer, iniReq, SdoReq.clear, SdoReq.nbyte, hexp]
            membuf := rfl
            room := by
              rw [hzero]
              exact Nat.zero_le _
            left := fun h => absurd rfl h }
    . obtain ⟨-, hout⟩ | ⟨bytes, hbytes, -⟩ := hout
      . have hlong : ¬ data.length ≤ 4 := by
          intro hle
          have hzero : data.length = 0 := Decidable.byContradiction fun hne => hexp ⟨hne, hle⟩
          have hnil := List.length_eq_zero_iff.1 hzero
          rw [hnil] at hmore
          cases hmore
        rw [hout, if_neg (by simpa using hexp), if_neg hlong]
        refine ⟨_, .inr ⟨hexp, ?_⟩, rfl⟩
        rw [hind]
        exact {
          state := rfl
          idx := rfl
          subidx := rfl
          toggle := hidle.toggle
          size := hrest.1
          offset := by
            show ((iniReq s data).dnBuf dev.mem).1.offset
              + ((iniReq s data).dnBuf dev.mem).1.buf.length = 7 * 0
            rw [hrest.2.1, hrest.2.2.1]
            rfl
          membuf := hrest.2.2.2.1
          room := hrest.2.2.2.2
          left := fun h => absurd rfl h }
      . rw [hmore] at hbytes
        cases hbytes
    . obtain ⟨hmore, -⟩ | ⟨bytes, hbytes, -⟩ := hout
      . rw [herror] at hmore
        cases hmore
      . rw [herror] at hbytes
        cases hbytes
    . obtain ⟨hmore, -⟩ | ⟨bytes, hbytes, -⟩ := hout
      . rw [hnever] at hmore
        cases hmore
      . rw [hnever] at hbytes
        cases hbytes

/-- The server accepts the initiate request of a download, or aborts. -/
theorem takes_dnIni {log : List Event} (dev : Dev) (hlog : lastReq log = some (.dnReq i sub data))
    (hidle : s.Idle) (hwait : s.state = .wait) (hsize : data.length < 2 ^ 32)
    : (download i sub data).Takes log [] 0 (s.emitRecv dev (dnReqMsg i sub data 0)) := by
  by_cases hac : ({ s with idx := i, subidx := sub, req := iniReq s data }.dnInd dev).2.1 = some 0
  . obtain ⟨s', hs', hrecv⟩ := @dnIni_accept i sub data s dev hidle hwait hsize hac
    rw [hrecv]
    have hstate : s'.Idle ∨ DnSession i sub data 0 s' :=
      hs'.imp (fun h => h.2.1) fun h => h.2
    by_cases hle : data.length ≤ 4
    . rw [if_pos hle]
      refine ⟨by simpa [Justified] using hlog, .inr ⟨hstate, _, rfl, rfl, fun _ => ?_⟩⟩
      simp [sinceReq, Event.isReq]
    . rw [if_neg hle]
      exact ⟨by simp, .inr ⟨hstate, _, rfl, rfl, fun hexp => absurd hexp.2 hle⟩⟩
  . obtain ⟨-, hout⟩ | ⟨hzero, -⟩ :=
      dnInd_cases { s with idx := i, subidx := sub, req := iniReq s data } dev
    . rw [recv_dnIni dev hwait hsize, Ssdo.dnIniInd]
      dsimp only
      rw [if_pos hac]
      exact takes_refused (by simp [hout]) (by simp [hout])
    . exact absurd hzero hac

/-- A download keeps to the rules of an exchange. -/
theorem download_rules (hsize : data.length < 2 ^ 32) : (download i sub data).Rules where
  ans_mono := by
    rintro v log e k x hreq ⟨rfl, hwrote⟩
    refine ⟨rfl, fun hlast => ?_⟩
    rw [sinceReq_cons hreq]
    exact List.mem_cons_of_mem _ (hwrote hlast)
  active_mono _ h := h
  session_mono _ h := h
  ans_zero h := h
  active_early _ h := h
  active_busy h := h.busy
  active_timeout h :=
    ⟨h.state, h.idx, h.subidx, h.size, h.toggle, h.dnBuf, h.dnCur, h.dnCon, h.segmented, h.reached⟩
  active_confirm := by
    rintro v log k c ac hactive hlog hopen hac
    exact ⟨_, .dnCon i sub ac, hactive.confirm ac, rfl, rfl, rfl, hopen, data, hlog,
      fun h => absurd h hac⟩
  session_segment h := .inl h.state
  session_timeout h :=
    ⟨h.state, h.idx, h.subidx, h.toggle, h.size, h.offset, h.membuf, h.room, h.left⟩
  req_first := by
    rintro x rfl
    rw [dnReqMsg]
    split
    . next hexp =>
      rw [length_iniFrame, cs_iniFrame]
      exact ⟨by omega, .inl (expCs_read (.inl rfl) (Nat.pos_of_ne_zero hexp.1) hexp.2).1⟩
    . rw [length_iniFrame, cs_iniFrame]
      exact ⟨by omega, .inl (by decide)⟩
  req_later := by
    rintro k x rfl
    have hchunk : (chunk data k).length ≤ 7 := by
      rw [length_chunk]
      omega
    rw [dnReqMsg, segMsg, length_segFrame, cs_segFrame]
    exact ⟨by omega, .inl (segCs_read k (lastChunk data k) hchunk).1⟩
  client_recv := by
    rintro v log sent k c x mem hlog hopen hactive ⟨rfl, hwrote⟩ hlo hle
    by_cases hk : k = sent
    . subst hk
      rw [hactive.recv mem]
      obtain ⟨hend, hlast⟩ | ⟨-, c', hsend, hactive'⟩ := hactive.goes
      . rw [hend]
        exact .inr (.inl ⟨Csdo.ended_over c 0, by simp [COut.frame], .dnCon i sub 0, rfl, rfl, hopen,
          data, hlog, fun _ => hwrote hlast⟩)
      . rw [hsend]
        exact .inr (.inr (.inr (.inr ⟨rfl, hactive', segMsg data k, rfl, rfl⟩)))
    . obtain rfl : sent = k + 1 := by omega
      exact .inl (hactive.recv_before mem)
  server_first := by
    rintro log x s dev hlog hidle hwait rfl
    exact ⟨[], takes_dnIni dev hlog hidle hwait hsize⟩
  server_next := by
    rintro v log k x s dev hlog hsession rfl
    exact hsession.next v dev hlog
  server_again := by
    rintro v log k x s dev hsession rfl
    obtain hstay | habort := hsession.again dev
    . rw [hstay]
      exact .inl ⟨hsession, rfl⟩
    . exact .inr habort

end LelyRtt.Wire
