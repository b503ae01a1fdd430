import LelyRtt.Dcf.Parse

/-!
This module contains the format of concise DCFs, the proof that the target accepts exactly this
format and never reads outside the buffer, and the walker of Lely that downloads an accepted DCF.
-/

namespace LelyRtt.Dcf

/-- `CO_SDO_AC_TYPE_LEN_LO` -/
def acTypeLenLo : BitVec 32 := 0x06070013#32

/-! ### The validation with every access and every subtraction checked -/

inductive Fault where
  -- a byte outside the buffer is read
  | outside (index : Nat)
  -- the offset is beyond the size, and the subtraction wraps
  | beyond (offset : Nat)
  deriving DecidableEq, Repr

/-- `bytes[index]` -/
def loadByte (bytes : List UInt8) (index : Nat) : Except Fault (BitVec 32) :=
  match bytes[index]? with
  | some byte => .ok (BitVec.ofNat 32 byte.toNat)
  | none => .error (.outside index)

/-- `lely_rtt_master_cfg_load_u32(bytes + offset)` -/
def checkedLoadU32 (bytes : List UInt8) (offset : Nat) : Except Fault (BitVec 32) := do
  let byte0 ← loadByte bytes offset
  let byte1 ← loadByte bytes (offset + 1)
  let byte2 ← loadByte bytes (offset + 2)
  let byte3 ← loadByte bytes (offset + 3)
  pure (byte0 ||| byte1 <<< 8 ||| byte2 <<< 16 ||| byte3 <<< 24)

/-- `size - offset` -/
def checkedSub (w size offset : Nat) : Except Fault Nat :=
  if offset ≤ size then .ok (sizeSub w size offset) else .error (.beyond offset)

/-- `offset += n` -/
def checkedAdd (w size offset n : Nat) : Except Fault Nat :=
  if sizeAdd w offset n ≤ size then
    .ok (sizeAdd w offset n)
  else
    .error (.beyond (sizeAdd w offset n))

/-- The loop of `lely_rtt_master_cfg_validate_dcf` with `todo` entries to go. -/
def checkedEntries (w : Nat) (bytes : List UInt8) (size todo offset : Nat)
    : Except Fault (Option Nat) :=
  match todo with
  | 0 => .ok (some offset)
  | todo + 1 => do
    let left ← checkedSub w size offset
    if left < 7 then
      pure none
    else do
      let valueSize ← checkedLoadU32 bytes (offset + 3)
      let offset ← checkedAdd w size offset 7
      let left ← checkedSub w size offset
      if valueSize.toNat % 2 ^ w > left then
        pure none
      else do
        let offset ← checkedAdd w size offset (valueSize.toNat % 2 ^ w)
        checkedEntries w bytes size todo offset

/-- `lely_rtt_master_cfg_validate_dcf`, where an access outside the buffer is a fault. -/
def checkedValidateDcf (w : Nat) (bytes : List UInt8) : Except Fault (Option Nat) :=
  let size := bytes.length
  if size < 4 then
    pure none
  else do
    let count ← checkedLoadU32 bytes 0
    if count.toNat = 0 then
      pure none
    else do
      let offset ← checkedEntries w bytes size count.toNat 4
      match offset with
      | none => pure none
      | some offset => if offset ≠ size then pure none else pure (some count.toNat)

/-! ### The walker of Lely over a concise DCF -/

/-- `co_val_read` of an unsigned integer of `size` bytes at an offset. -/
def coValRead (w : Nat) (data : List UInt8) (begin_ size : Nat) : Option Nat :=
  if sizeSub w data.length begin_ < size then
    none
  else
    some (leNat (slice data begin_ (begin_ + size)))

/-- `(ptrdiff_t)size` -/
def ptrdiff (w size : Nat) : Int := Int.bmod size (2 ^ w)

/-- The arguments of the final confirmation. -/
structure DcfCon where
  idx : Nat
  subidx : Nat
  ac : BitVec 32
  deriving DecidableEq, Repr

/-- The downloads that were submitted, in order, and the final confirmation. -/
structure DcfRun where
  downloads : List ConciseEntry
  con : DcfCon
  deriving DecidableEq, Repr

/--
`co_csdo_dn_dcf_dn_con` with `n` entries to go. `answer` is the abort code with which the download of
an entry is confirmed.
-/
def csdoDnDcfDnCon (w : Nat) (data : List UInt8) (answer : ConciseEntry → BitVec 32)
    (n begin_ idx subidx : Nat) (ac : BitVec 32) : DcfRun :=
  match n with
  | 0 => ⟨[], ⟨idx, subidx, ac⟩⟩
  | n + 1 =>
    if ac ≠ 0 then
      ⟨[], ⟨idx, subidx, ac⟩⟩
    else
      match coValRead w data begin_ 2 with
      | none => ⟨[], ⟨0, 0, acTypeLenLo⟩⟩
      | some idx =>
        match coValRead w data (begin_ + 2) 1 with
        | none => ⟨[], ⟨idx, 0, acTypeLenLo⟩⟩
        | some subidx =>
          match coValRead w data (begin_ + 3) 4 with
          | none => ⟨[], ⟨idx, subidx, acTypeLenLo⟩⟩
          | some size =>
            if ptrdiff w (sizeSub w data.length (begin_ + 7)) < ptrdiff w size then
              ⟨[], ⟨idx, subidx, acTypeLenLo⟩⟩
            else
              let entry : ConciseEntry := ⟨idx, subidx, slice data (begin_ + 7) (begin_ + 7 + size)⟩
              let rest :=
                csdoDnDcfDnCon w data answer n (begin_ + 7 + size) idx subidx (answer entry)
              ⟨entry :: rest.downloads, rest.con⟩

/-- `co_csdo_dn_dcf_req` on an idle service. -/
def csdoDnDcfReq (w : Nat) (data : List UInt8) (answer : ConciseEntry → BitVec 32) : DcfRun :=
  match coValRead w data 0 4 with
  | none => ⟨[], ⟨0, 0, acTypeLenLo⟩⟩
  | some n => csdoDnDcfDnCon w data answer n 4 0 0 0

/-! ### The scan stays inside the buffer -/

section

variable {data : List UInt8} {w : Nat}

theorem ok_bind {α β : Type} (a : α) (f : α → Except Fault β) : (Except.ok a >>= f) = f a :=
  rfl

theorem loadByte_eq {index : Nat} (h : index < data.length)
    : loadByte data index = .ok (BitVec.ofNat 32 (data.getD index 0).toNat) := by
  simp [loadByte, h]

theorem checkedLoadU32_eq {offset : Nat} (h : offset + 4 ≤ data.length)
    : checkedLoadU32 data offset = .ok (cfgLoadU32 data offset) := by
  simp only [checkedLoadU32, loadByte_eq (show offset < data.length by omega),
    loadByte_eq (show offset + 1 < data.length by omega),
    loadByte_eq (show offset + 2 < data.length by omega),
    loadByte_eq (show offset + 3 < data.length by omega)]
  rfl

theorem checkedAdd_eq {size offset n : Nat} (hsize : size < 2 ^ w) (h : offset + n ≤ size)
    : checkedAdd w size offset n = .ok (offset + n) := by
  rw [checkedAdd, sizeAdd_eq (Nat.lt_of_le_of_lt h hsize), if_pos h]

theorem checkedSub_eq {size offset : Nat} (hsize : size < 2 ^ w) (h : offset ≤ size)
    : checkedSub w size offset = .ok (size - offset) := by
  rw [checkedSub, if_pos h, sizeSub_eq h hsize]

/-- No turn of the loop leaves the buffer. -/
theorem checkedEntries_eq (hdata : data.length < 2 ^ w) {todo offset : Nat}
    (hoffset : offset ≤ data.length)
    : checkedEntries w data data.length todo offset
      = .ok (validateEntries w data data.length todo offset) := by
  induction todo generalizing offset with
  | zero => rfl
  | succ todo ih =>
    simp only [checkedEntries, validateEntries, checkedSub_eq hdata hoffset,
      sizeSub_eq hoffset hdata, ok_bind]
    split
    next => rfl
    next hheader =>
      simp only [checkedLoadU32_eq (show offset + 3 + 4 ≤ data.length by omega),
        checkedAdd_eq hdata (show offset + 7 ≤ data.length by omega),
        checkedSub_eq hdata (show offset + 7 ≤ data.length by omega),
        sizeAdd_eq (show offset + 7 < 2 ^ w by omega),
        sizeSub_eq (show offset + 7 ≤ data.length by omega) hdata, ok_bind]
      split
      next => rfl
      next hvalue =>
        have hnext : offset + 7 + (cfgLoadU32 data (offset + 3)).toNat % 2 ^ w ≤ data.length := by
          omega
        simp only [checkedAdd_eq hdata hnext, ok_bind]
        rw [sizeAdd_eq (Nat.lt_of_le_of_lt hnext hdata), ih hnext]

/-- The validation reads no byte outside the buffer, and none of its subtractions wraps. -/
theorem checkedValidateDcf_eq (hdata : data.length < 2 ^ w)
    : checkedValidateDcf w data = .ok (cfgValidateDcf w data) := by
  simp only [checkedValidateDcf, cfgValidateDcf]
  split
  next => rfl
  next hshort =>
    simp only [checkedLoadU32_eq (show 0 + 4 ≤ data.length by omega), ok_bind]
    split
    next => rfl
    next hcount =>
      rw [checkedEntries_eq hdata (by omega), ok_bind]
      cases validateEntries w data data.length (cfgLoadU32 data 0).toNat 4 with
      | none => rfl
      | some offset =>
        simp only
        split <;> rfl

/-! ### What is accepted -/

theorem leNat_leBytes {size n : Nat} (h : n < 256 ^ size) : leNat (leBytes size n) = n := by
  induction size generalizing n with
  | zero =>
    rw [Nat.pow_zero] at h
    simp only [leBytes, leNat]
    omega
  | succ size ih =>
    have hrest : n / 256 < 256 ^ size := by
      rw [Nat.pow_succ] at h
      omega
    rw [leBytes, leNat, ih hrest, UInt8.toNat_ofNat']
    omega

theorem slice_of_append {before part after : List UInt8} {start stop : Nat}
    (hdata : data = before ++ part ++ after) (hstart : start = before.length)
    (hstop : stop = start + part.length) : slice data start stop = part := by
  subst hdata hstart hstop
  simp [slice]

/-- Where the fields of an entry stand. -/
theorem slices_of_encode {entry : ConciseEntry} {before after : List UInt8} {offset : Nat}
    (hdata : data = before ++ entry.encode ++ after) (hoffset : offset = before.length)
    : slice data offset (offset + 2) = leBytes 2 entry.index
      ∧ slice data (offset + 2) (offset + 3) = leBytes 1 entry.subIndex
      ∧ slice data (offset + 3) (offset + 7) = leBytes 4 entry.value.length
      ∧ slice data (offset + 7) (offset + 7 + entry.value.length) = entry.value
      ∧ data.length = offset + 7 + entry.value.length + after.length := by
  have hsplit : data = before ++ leBytes 2 entry.index ++ leBytes 1 entry.subIndex
      ++ leBytes 4 entry.value.length ++ entry.value ++ after := by
    simp [hdata, ConciseEntry.encode]
  have hat (first last : List UInt8) {part : List UInt8} {start stop : Nat}
      (hparts : first ++ part ++ last = before ++ leBytes 2 entry.index ++ leBytes 1 entry.subIndex
        ++ leBytes 4 entry.value.length ++ entry.value ++ after)
      (hstart : start = first.length) (hstop : stop = start + part.length)
      : slice data start stop = part :=
    slice_of_append (hsplit.trans hparts.symm) hstart hstop
  refine ⟨?_, ?_, ?_, ?_, ?_⟩
  . exact hat before
      (leBytes 1 entry.subIndex ++ leBytes 4 entry.value.length ++ entry.value ++ after)
      (by simp) hoffset (by rw [length_leBytes])
  . exact hat (before ++ leBytes 2 entry.index)
      (leBytes 4 entry.value.length ++ entry.value ++ after)
      (by simp) (by simp [hoffset, length_leBytes]) (by rw [length_leBytes])
  . exact hat (before ++ leBytes 2 entry.index ++ leBytes 1 entry.subIndex) (entry.value ++ after)
      (by simp) (by simp [hoffset, length_leBytes]) (by rw [length_leBytes])
  . exact hat _ _ rfl (by simp [hoffset, length_leBytes]) rfl
  . simp only [hsplit, hoffset, List.length_append, length_leBytes]

/-- The loop reads the entries back from the bytes they are written as. -/
theorem parseEntries_of_encode {new entries : List ConciseEntry} {before : List UInt8}
    {entryNo offset : Nat} (hfits : ∀ entry ∈ new, entry.Fits)
    (hdata : data = before ++ new.flatMap (·.encode)) (hoffset : offset = before.length)
    : parseEntries data new.length entryNo offset entries = .ok (entries ++ new, data.length) := by
  induction new generalizing before entries entryNo offset with
  | nil => simp [parseEntries, hdata, hoffset]
  | cons entry new ih =>
    obtain ⟨hindexFits, hsubIndexFits, hsizeFits⟩ := hfits entry List.mem_cons_self
    rw [List.flatMap_cons, ← List.append_assoc] at hdata
    obtain ⟨hindex, hsubIndex, hsize, hvalue, hlength⟩ := slices_of_encode hdata hoffset
    have hencode : (before ++ entry.encode).length = offset + 7 + entry.value.length := by
      simp only [ConciseEntry.encode, List.length_append, length_leBytes, hoffset]
      omega
    have hrest := @ih (entries ++ [entry]) (before ++ entry.encode) (entryNo + 1)
      (offset + 7 + entry.value.length) (fun e he => hfits e (List.mem_cons_of_mem entry he)) hdata
      hencode.symm
    have hcount : leNat (leBytes 4 entry.value.length) = entry.value.length :=
      @leNat_leBytes 4 _ hsizeFits
    have hread : parseEntries data (new.length + 1) entryNo offset entries
        = parseEntries data new.length (entryNo + 1) (offset + 7 + entry.value.length)
          (entries ++ [entry]) := by
      rw [parseEntries, hindex, hsubIndex, hsize, hcount, @leNat_leBytes 2 _ hindexFits,
        @leNat_leBytes 1 _ hsubIndexFits]
      simp only [hvalue]
      rw [if_neg (by omega), if_neg (by omega)]
    rw [List.length_cons, hread, hrest, List.append_assoc, List.singleton_append]

/-- A concise DCF is parsed as the entries it is made of. -/
theorem parseConciseDcf_encodeDcf {entries : List ConciseEntry} (hne : entries ≠ [])
    (hcount : entries.length < 2 ^ 32) (hfits : ∀ entry ∈ entries, entry.Fits)
    : parseConciseDcf (encodeDcf entries) = .ok entries := by
  have hload : loadU32 (encodeDcf entries) 0 = entries.length := by
    have hslice : slice (encodeDcf entries) 0 (0 + 4) = leBytes 4 entries.length :=
      @slice_of_append _ [] _ _ _ _ rfl rfl (by rw [length_leBytes])
    rw [loadU32, hslice, @leNat_leBytes 4 _ hcount]
  have hlength : 4 ≤ (encodeDcf entries).length := by
    rw [encodeDcf, List.length_append, length_leBytes]
    omega
  have hpositive : entries.length ≠ 0 := fun hzero => hne (List.eq_nil_of_length_eq_zero hzero)
  have hparse : parseEntries (encodeDcf entries) entries.length 1 4 []
      = .ok ([] ++ entries, (encodeDcf entries).length) :=
    parseEntries_of_encode hfits rfl (length_leBytes 4 _).symm
  simp only [parseConciseDcf, hload, hparse]
  rw [if_neg (by omega), if_neg hpositive]
  simp

/-! ### The walker of Lely over an accepted DCF -/

theorem coValRead_eq (hdata : data.length < 2 ^ w) {begin_ size : Nat}
    (h : begin_ + size ≤ data.length)
    : coValRead w data begin_ size = some (leNat (slice data begin_ (begin_ + size))) := by
  rw [coValRead, sizeSub_eq (by omega) hdata, if_neg (by omega)]

theorem ptrdiff_eq {n : Nat} (hw : 0 < w) (h : n < 2 ^ (w - 1)) : ptrdiff w n = n := by
  obtain ⟨v, rfl⟩ : ∃ v, w = v + 1 := ⟨w - 1, by omega⟩
  rw [Nat.add_sub_cancel] at h
  have hpow : 2 ^ (v + 1) = 2 ^ v * 2 := Nat.pow_succ 2 v
  rw [ptrdiff]
  exact Int.bmod_eq_of_le (by omega) (by omega)

/-- The walker submits the entries that the host tool parses. -/
theorem csdoDnDcfDnCon_of_parse (hw : 32 ≤ w) (hdata : data.length < 2 ^ (w - 1))
    {todo entryNo offset stop idx subidx : Nat} {entries result : List ConciseEntry}
    (hoffset : offset ≤ data.length)
    (h : parseEntries data todo entryNo offset entries = .ok (result, stop))
    : result = entries ++ (csdoDnDcfDnCon w data (fun _ => 0) todo offset idx subidx 0).downloads
      ∧ (csdoDnDcfDnCon w data (fun _ => 0) todo offset idx subidx 0).con.ac = 0 := by
  have hsize : data.length < 2 ^ w :=
    Nat.lt_of_lt_of_le hdata (Nat.pow_le_pow_right (by omega) (by omega))
  induction todo generalizing entryNo offset entries idx subidx with
  | zero =>
    simp only [parseEntries, Except.ok.injEq, Prod.mk.injEq] at h
    obtain ⟨rfl, rfl⟩ := h
    simp [csdoDnDcfDnCon]
  | succ todo ih =>
    simp only [parseEntries] at h
    split at h
    next => cases h
    next hheader =>
      split at h
      next => cases h
      next hvalue =>
        have hrest := @ih _ _ (leNat (slice data offset (offset + 2)))
          (leNat (slice data (offset + 2) (offset + 3))) _ (by omega) h
        have hleft : sizeSub w data.length (offset + 7) = data.length - (offset + 7) :=
          sizeSub_eq (by omega) hsize
        simp only [csdoDnDcfDnCon, coValRead_eq hsize (show offset + 2 ≤ data.length by omega),
          coValRead_eq hsize (show offset + 2 + 1 ≤ data.length by omega),
          coValRead_eq hsize (show offset + 3 + 4 ≤ data.length by omega), hleft, Nat.add_assoc,
          Nat.reduceAdd]
        rw [if_neg (by simp), ptrdiff_eq (by omega) (by omega), ptrdiff_eq (by omega) (by omega),
          if_neg (by omega)]
        rw [List.append_assoc, List.singleton_append] at hrest
        simpa only [Nat.add_assoc] using hrest

/-- The walker downloads the entries of an accepted DCF, and confirms without an abort code. -/
theorem csdoDnDcfReq_of_parse (hw : 32 ≤ w) (hdata : data.length < 2 ^ (w - 1))
    {entries : List ConciseEntry} (h : parseConciseDcf data = .ok entries)
    : (csdoDnDcfReq w data (fun _ => 0)).downloads = entries
      ∧ (csdoDnDcfReq w data (fun _ => 0)).con.ac = 0 := by
  have hsize : data.length < 2 ^ w :=
    Nat.lt_of_lt_of_le hdata (Nat.pow_le_pow_right (by omega) (by omega))
  simp only [parseConciseDcf] at h
  split at h
  next => cases h
  next hshort =>
    split at h
    next => cases h
    next hcount =>
      split at h
      next => cases h
      next result offset hparse =>
        split at h
        next => cases h
        next hoffset =>
          simp only [Except.ok.injEq] at h
          subst h
          have hwalk := @csdoDnDcfDnCon_of_parse _ _ hw hdata _ _ _ _ 0 0 _ _ (by omega) hparse
          simp only [csdoDnDcfReq, coValRead_eq hsize (show 0 + 4 ≤ data.length by omega)]
          exact ⟨hwalk.1.symm, hwalk.2⟩

/--
The target accepts a concise DCF if and only if it is a positive number of entries and these entries,
stores their number, and reads only inside the buffer. Lely downloads the entries of an accepted DCF in
order.
-/
theorem validate_dcf_exact (hw : 32 ≤ w) (hdata : data.length < 2 ^ w)
    : (∀ n, cfgValidateDcf w data = some n ↔
        ∃ entries : List ConciseEntry, 1 ≤ n ∧ entries.length = n ∧ n < 2 ^ 32
          ∧ (∀ entry ∈ entries, entry.Fits) ∧ data = encodeDcf entries)
      ∧ checkedValidateDcf w data = .ok (cfgValidateDcf w data)
      ∧ ∀ entries : List ConciseEntry, entries ≠ [] → entries.length < 2 ^ 32 →
        (∀ entry ∈ entries, entry.Fits) → data = encodeDcf entries → data.length < 2 ^ (w - 1) →
        (csdoDnDcfReq w data (fun _ => 0)).downloads = entries
          ∧ (csdoDnDcfReq w data (fun _ => 0)).con.ac = 0 := by
  refine ⟨?_, checkedValidateDcf_eq hdata, ?_⟩
  . intro n
    rw [cfgValidateDcf_eq hw hdata]
    constructor
    . intro h
      obtain ⟨entries, hparse, hlength⟩ := Option.map_eq_some_iff.mp h
      have hparse : parseConciseDcf data = .ok entries := by
        cases heq : parseConciseDcf data with
        | error err => simp [heq, Except.toOption] at hparse
        | ok result => simp_all [Except.toOption]
      obtain ⟨-, hcount, hne, hencode, hfits⟩ := parseConciseDcf_ok hparse
      have hpositive := List.length_pos_of_ne_nil hne
      have hbound := leNat_slice_four_lt data 0
      rw [← loadU32, ← hcount] at hbound
      exact ⟨entries, by omega, hlength, by omega, hfits, hencode.symm⟩
    . rintro ⟨entries, hpositive, hlength, hbound, hfits, rfl⟩
      have hne : entries ≠ [] := List.ne_nil_of_length_pos (by omega)
      rw [parseConciseDcf_encodeDcf hne (by omega) hfits]
      simp [Except.toOption, hlength]
  . intro entries hne hcount hfits hencode hptrdiff
    have hparse := parseConciseDcf_encodeDcf hne hcount hfits
    rw [← hencode] at hparse
    exact csdoDnDcfReq_of_parse hw hptrdiff hparse

theorem validate_dcf_exact_one
    : cfgValidateDcf 32 [1, 0, 0, 0, 0x17, 0x10, 0, 2, 0, 0, 0, 0xe8, 0x03] = some 1
      ∧ (csdoDnDcfReq 32 [1, 0, 0, 0, 0x17, 0x10, 0, 2, 0, 0, 0, 0xe8, 0x03] (fun _ => 0)).downloads
        = [⟨0x1017, 0, [0xe8, 0x03]⟩] := by
  have hexact := @validate_dcf_exact [1, 0, 0, 0, 0x17, 0x10, 0, 2, 0, 0, 0, 0xe8, 0x03] 32
    (Nat.le_refl 32) (by decide)
  have hfits : ∀ entry ∈ [(⟨0x1017, 0, [0xe8, 0x03]⟩ : ConciseEntry)], entry.Fits := by
    simp [ConciseEntry.Fits]
  exact ⟨(hexact.1 1).mpr ⟨_, by decide, rfl, by decide, hfits, rfl⟩,
    (hexact.2.2 _ (by simp) (by decide) hfits rfl (by decide)).1⟩

end

end LelyRtt.Dcf
