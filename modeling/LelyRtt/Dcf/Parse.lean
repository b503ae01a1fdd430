import Mathlib.Algebra.Ring.Nat
import Mathlib.Data.List.Basic
import Mathlib.Tactic.Common

/-!
This module contains the three readers of concise DCFs: `parse_concise_dcf` of
`tools/gen_cfg_dcf.py`, `parse_concise_dcf` of `tools/compact_master_dcf.py` and
`lely_rtt_master_cfg_validate_dcf` on the target, and the proof that they agree.
-/

namespace LelyRtt.Dcf

/-- `int.from_bytes(data, "little")` -/
def leNat : List UInt8 → Nat
  | [] => 0
  | byte :: rest => byte.toNat + 256 * leNat rest

/-- `data[start:stop]` -/
def slice (data : List UInt8) (start stop : Nat) : List UInt8 :=
  (data.drop start).take (stop - start)

/-! ### The host tool that embeds a concise DCF -/

structure ConciseEntry where
  index : Nat
  subIndex : Nat
  value : List UInt8
  deriving DecidableEq, Repr

/-- The reasons for which `parse_concise_dcf` raises a `ValueError`. -/
inductive ParseError where
  | short
  | noEntries
  | header (entryNo : Nat)
  | value (entryNo need have_ : Nat)
  | trailing (bytes : Nat)
  deriving DecidableEq, Repr

/-- `_load_u32` -/
def loadU32 (data : List UInt8) (offset : Nat) : Nat :=
  leNat (slice data offset (offset + 4))

/-- The loop of `parse_concise_dcf` with `todo` entries to go. -/
def parseEntries (data : List UInt8) (todo entryNo offset : Nat) (entries : List ConciseEntry)
    : Except ParseError (List ConciseEntry × Nat) :=
  match todo with
  | 0 => .ok (entries, offset)
  | todo + 1 =>
    if data.length - offset < 7 then
      .error (.header entryNo)
    else
      -- `struct.unpack_from("<HBI", data, offset)`
      let index := leNat (slice data offset (offset + 2))
      let subIndex := leNat (slice data (offset + 2) (offset + 3))
      let valueSize := leNat (slice data (offset + 3) (offset + 7))
      let offset := offset + 7
      if valueSize > data.length - offset then
        .error (.value entryNo valueSize (data.length - offset))
      else
        let value := slice data offset (offset + valueSize)
        parseEntries data todo (entryNo + 1) (offset + valueSize)
          (entries ++ [⟨index, subIndex, value⟩])

/-- `gen_cfg_dcf.parse_concise_dcf` -/
def parseConciseDcf (data : List UInt8) : Except ParseError (List ConciseEntry) :=
  if data.length < 4 then
    .error .short
  else
    let count := loadU32 data 0
    if count = 0 then
      .error .noEntries
    else
      match parseEntries data count 1 4 [] with
      | .error err => .error err
      | .ok (entries, offset) =>
        if offset ≠ data.length then .error (.trailing (data.length - offset)) else .ok entries

/-! ### The host tool that compacts the DCF of the Master -/

structure ConciseDcfEntry where
  index : Nat
  subidx : Nat
  data : List UInt8
  deriving DecidableEq, Repr

inductive CompactError where
  | short
  | header (entry count : Nat)
  | data (entry count have_ size : Nat)
  | trailing (bytes count : Nat)
  deriving DecidableEq, Repr

/-- The loop of `parse_concise_dcf` from `entry` on, with `todo` entries to go. -/
def compactEntries (data : List UInt8) (count todo entry offset : Nat)
    (entries : List ConciseDcfEntry) : Except CompactError (List ConciseDcfEntry × Nat) :=
  match todo with
  | 0 => .ok (entries, offset)
  | todo + 1 =>
    if data.length - offset < 7 then
      .error (.header (entry + 1) count)
    else
      let index := leNat (slice data offset (offset + 2))
      let subidx := (data.getD (offset + 2) 0).toNat
      let size := leNat (slice data (offset + 3) (offset + 7))
      let offset := offset + 7
      if data.length - offset < size then
        .error (.data (entry + 1) count (data.length - offset) size)
      else
        compactEntries data count todo (entry + 1) (offset + size)
          (entries ++ [⟨index, subidx, slice data offset (offset + size)⟩])

/-- `compact_master_dcf.parse_concise_dcf` -/
def compactParseConciseDcf (data : List UInt8) : Except CompactError (List ConciseDcfEntry) :=
  if data.length < 4 then
    .error .short
  else
    let count := leNat (slice data 0 4)
    match compactEntries data count count 0 4 [] with
    | .error err => .error err
    | .ok (entries, offset) =>
      if offset ≠ data.length then .error (.trailing (data.length - offset) count) else .ok entries

/-! ### The target, where `rt_size_t` has `w` bits -/

/-- `lely_rtt_master_cfg_load_u32(bytes + offset)` -/
def cfgLoadU32 (bytes : List UInt8) (offset : Nat) : BitVec 32 :=
  let byte (i : Nat) : BitVec 32 := BitVec.ofNat 32 (bytes.getD (offset + i) 0).toNat
  byte 0 ||| byte 1 <<< 8 ||| byte 2 <<< 16 ||| byte 3 <<< 24

/-- `a - b` on `rt_size_t` -/
def sizeSub (w a b : Nat) : Nat := (a + (2 ^ w - b % 2 ^ w)) % 2 ^ w

/-- `a + b` on `rt_size_t` -/
def sizeAdd (w a b : Nat) : Nat := (a + b) % 2 ^ w

/-- The loop of `lely_rtt_master_cfg_validate_dcf` with `todo` entries to go; the last offset. -/
def validateEntries (w : Nat) (bytes : List UInt8) (size todo offset : Nat) : Option Nat :=
  match todo with
  | 0 => some offset
  | todo + 1 =>
    if sizeSub w size offset < 7 then
      none
    else
      let valueSize := (cfgLoadU32 bytes (offset + 3)).toNat
      let offset := sizeAdd w offset 7
      if valueSize % 2 ^ w > sizeSub w size offset then
        none
      else
        validateEntries w bytes size todo (sizeAdd w offset (valueSize % 2 ^ w))

/--
`lely_rtt_master_cfg_validate_dcf` for a buffer and a place for the count; the count if the buffer is
accepted.
-/
def cfgValidateDcf (w : Nat) (bytes : List UInt8) : Option Nat :=
  let size := bytes.length
  if size < 4 then
    none
  else
    let count := (cfgLoadU32 bytes 0).toNat
    if count = 0 then
      none
    else
      match validateEntries w bytes size count 4 with
      | none => none
      | some offset => if offset ≠ size then none else some count

/-! ### The fields of an entry -/

theorem leNat_lt (data : List UInt8) : leNat data < 256 ^ data.length := by
  induction data with
  | nil => simp [leNat]
  | cons byte rest ih =>
    have hbyte := byte.toNat_lt
    simp only [leNat, List.length_cons, Nat.pow_succ]
    omega

theorem slice_length {data : List UInt8} {start stop : Nat} (h : stop ≤ data.length)
    (hstart : start ≤ stop) : (slice data start stop).length = stop - start := by
  simp only [slice, List.length_take, List.length_drop]
  omega

theorem slice_append {data : List UInt8} {start middle stop : Nat} (hstart : start ≤ middle)
    (hmiddle : middle ≤ stop)
    : slice data start middle ++ slice data middle stop = slice data start stop := by
  have hsplit : stop - start = (middle - start) + (stop - middle) := by omega
  simp only [slice]
  rw [hsplit, List.take_add, List.drop_drop]
  congr 3
  omega

theorem slice_one {data : List UInt8} {offset : Nat} (h : offset < data.length)
    : slice data offset (offset + 1) = [data.getD offset 0] := by
  rw [slice, List.drop_eq_getElem_cons h, show offset + 1 - offset = 1 by omega, List.take_succ_cons,
    List.take_zero, List.getD_eq_getElem?_getD, List.getElem?_eq_getElem h, Option.getD_some]

theorem leNat_slice_one {data : List UInt8} {offset : Nat} (h : offset < data.length)
    : leNat (slice data offset (offset + 1)) = (data.getD offset 0).toNat := by
  simp [slice_one h, leNat]

theorem slice_four {data : List UInt8} {offset : Nat} (h : offset + 4 ≤ data.length)
    : slice data offset (offset + 4) = [data.getD offset 0, data.getD (offset + 1) 0,
      data.getD (offset + 2) 0, data.getD (offset + 3) 0] := by
  rw [← slice_append (show offset ≤ offset + 1 by omega) (show offset + 1 ≤ offset + 4 by omega),
    ← slice_append (show offset + 1 ≤ offset + 1 + 1 by omega)
      (show offset + 1 + 1 ≤ offset + 4 by omega),
    ← slice_append (show offset + 1 + 1 ≤ offset + 1 + 1 + 1 by omega)
      (show offset + 1 + 1 + 1 ≤ offset + 4 by omega)]
  rw [slice_one (by omega), slice_one (by omega), slice_one (by omega)]
  rw [show offset + 4 = offset + 1 + 1 + 1 + 1 from rfl, slice_one (by omega)]
  rfl

/-- The bytes of a 32-bit field do not overlap. -/
theorem toNat_or_shiftLeft (low high : BitVec 32) (i : Nat) (hlow : low.toNat < 2 ^ i)
    (hhigh : high.toNat * 2 ^ i < 2 ^ 32)
    : (low ||| high <<< i).toNat = low.toNat + high.toNat * 2 ^ i := by
  rw [BitVec.toNat_or, BitVec.toNat_shiftLeft, Nat.shiftLeft_eq, Nat.mod_eq_of_lt hhigh, Nat.or_comm,
    ← Nat.shiftLeft_eq, ← Nat.shiftLeft_add_eq_or_of_lt hlow, Nat.shiftLeft_eq, Nat.add_comm]

theorem toNat_or_bytes {b₀ b₁ b₂ b₃ : BitVec 32} (h₀ : b₀.toNat < 256) (h₁ : b₁.toNat < 256)
    (h₂ : b₂.toNat < 256) (h₃ : b₃.toNat < 256)
    : (b₀ ||| b₁ <<< 8 ||| b₂ <<< 16 ||| b₃ <<< 24).toNat
      = b₀.toNat + 256 * (b₁.toNat + 256 * (b₂.toNat + 256 * b₃.toNat)) := by
  have hone : (b₀ ||| b₁ <<< 8).toNat = b₀.toNat + b₁.toNat * 2 ^ 8 :=
    toNat_or_shiftLeft b₀ b₁ 8 (by omega) (by omega)
  have htwo : (b₀ ||| b₁ <<< 8 ||| b₂ <<< 16).toNat
      = b₀.toNat + b₁.toNat * 2 ^ 8 + b₂.toNat * 2 ^ 16 := by
    rw [toNat_or_shiftLeft _ b₂ 16 (by omega) (by omega), hone]
  rw [toNat_or_shiftLeft _ b₃ 24 (by omega) (by omega), htwo]
  omega

theorem cfgLoadU32_toNat {data : List UInt8} {offset : Nat} (h : offset + 4 ≤ data.length)
    : (cfgLoadU32 data offset).toNat = leNat (slice data offset (offset + 4)) := by
  have hnat (i : Nat) : (BitVec.ofNat 32 (data.getD (offset + i) 0).toNat).toNat
      = (data.getD (offset + i) 0).toNat := by
    have hbyte := (data.getD (offset + i) 0).toNat_lt
    rw [BitVec.toNat_ofNat, Nat.mod_eq_of_lt]
    omega
  have hlt (i : Nat) : (BitVec.ofNat 32 (data.getD (offset + i) 0).toNat).toNat < 256 := by
    rw [hnat]
    exact UInt8.toNat_lt _
  simp only [cfgLoadU32]
  rw [toNat_or_bytes (hlt 0) (hlt 1) (hlt 2) (hlt 3), hnat, hnat, hnat, hnat, slice_four h]
  simp [leNat]

/-! ### The three readers agree -/

section

variable {data : List UInt8} {w : Nat}

theorem sizeSub_eq {a b : Nat} (hb : b ≤ a) (ha : a < 2 ^ w) : sizeSub w a b = a - b := by
  rw [sizeSub, Nat.mod_eq_of_lt (Nat.lt_of_le_of_lt hb ha),
    show a + (2 ^ w - b) = (a - b) + 2 ^ w by omega, Nat.add_mod_right, Nat.mod_eq_of_lt (by omega)]

theorem sizeAdd_eq {a b : Nat} (h : a + b < 2 ^ w) : sizeAdd w a b = a + b :=
  Nat.mod_eq_of_lt h

theorem leNat_slice_four_lt (data : List UInt8) (offset : Nat)
    : leNat (slice data offset (offset + 4)) < 2 ^ 32 := by
  have hlength : (slice data offset (offset + 4)).length ≤ 4 := by
    simp only [slice, List.length_take]
    omega
  calc leNat (slice data offset (offset + 4))
      < 256 ^ (slice data offset (offset + 4)).length := leNat_lt _
    _ ≤ 256 ^ 4 := Nat.pow_le_pow_right (by omega) hlength

/-- The target walks over the entries like the host tool. -/
theorem validateEntries_eq (hw : 32 ≤ w) (hdata : data.length < 2 ^ w) (todo entryNo offset : Nat)
    (entries : List ConciseEntry) (hoffset : offset ≤ data.length)
    : validateEntries w data data.length todo offset
      = (parseEntries data todo entryNo offset entries).toOption.map (·.2) := by
  induction todo generalizing entryNo offset entries with
  | zero => rfl
  | succ todo ih =>
    simp only [validateEntries, parseEntries, sizeSub_eq hoffset hdata]
    split
    next => rfl
    next hheader =>
      have hload := cfgLoadU32_toNat (show offset + 3 + 4 ≤ data.length by omega)
      have hmod : leNat (slice data (offset + 3) (offset + 3 + 4)) % 2 ^ w
          = leNat (slice data (offset + 3) (offset + 3 + 4)) :=
        Nat.mod_eq_of_lt (Nat.lt_of_lt_of_le (leNat_slice_four_lt data (offset + 3))
          (Nat.pow_le_pow_right (by omega) hw))
      rw [hload, hmod, sizeAdd_eq (by omega), sizeSub_eq (by omega) hdata]
      simp only [Nat.add_assoc, Nat.reduceAdd]
      split
      next => rfl
      next hvalue =>
        rw [sizeAdd_eq (by omega)]
        simp only [← Nat.add_assoc]
        exact ih _ _ _ (by omega)

/-- What `compact_master_dcf` makes of an entry. -/
def ConciseEntry.compact (entry : ConciseEntry) : ConciseDcfEntry :=
  ⟨entry.index, entry.subIndex, entry.value⟩

/-- The tool that compacts the DCF of the Master walks over the entries like the one that embeds it. -/
theorem compactEntries_eq {count todo entryNo entry offset : Nat} {entries : List ConciseEntry}
    : (compactEntries data count todo entry offset (entries.map (·.compact))).toOption
      = (parseEntries data todo entryNo offset entries).toOption.map
        (fun p => (p.1.map (·.compact), p.2)) := by
  induction todo generalizing entryNo entry offset entries with
  | zero => rfl
  | succ todo ih =>
    simp only [compactEntries, parseEntries]
    split
    next => rfl
    next hheader =>
      rw [show offset + 3 = offset + 2 + 1 from rfl, leNat_slice_one (by omega)]
      split
      next => rfl
      next hvalue =>
        rw [← @ih (entryNo + 1) (entry + 1), List.map_append]
        rfl

/-- The bytes `struct.pack` makes of a number that fits `size` of them. -/
def leBytes : Nat → Nat → List UInt8
  | 0, _ => []
  | size + 1, value => UInt8.ofNat value :: leBytes size (value / 256)

/-- An entry as it stands in a concise DCF. -/
def ConciseEntry.encode (entry : ConciseEntry) : List UInt8 :=
  leBytes 2 entry.index ++ leBytes 1 entry.subIndex ++ leBytes 4 entry.value.length ++ entry.value

/-- The fields of the entry fit the sizes they have in a concise DCF. -/
def ConciseEntry.Fits (entry : ConciseEntry) : Prop :=
  entry.index < 2 ^ 16 ∧ entry.subIndex < 2 ^ 8 ∧ entry.value.length < 2 ^ 32

theorem leBytes_leNat (bytes : List UInt8) : leBytes bytes.length (leNat bytes) = bytes := by
  induction bytes with
  | nil => rfl
  | cons byte rest ih =>
    have hbyte := byte.toNat_lt
    have hdiv : (byte.toNat + 256 * leNat rest) / 256 = leNat rest := by omega
    have hmod : UInt8.ofNat (byte.toNat + 256 * leNat rest) = byte := by
      apply UInt8.toNat_inj.mp
      rw [UInt8.toNat_ofNat']
      omega
    simp only [List.length_cons, leNat, leBytes, hdiv, hmod, ih]

theorem length_leBytes (size value : Nat) : (leBytes size value).length = size := by
  induction size generalizing value with
  | zero => rfl
  | succ size ih => rw [leBytes, List.length_cons, ih]

theorem leBytes_slice {start stop size : Nat} (hstop : stop ≤ data.length)
    (hsize : start + size = stop) : leBytes size (leNat (slice data start stop)) = slice data start stop := by
  have hlength := slice_length hstop (show start ≤ stop by omega)
  rw [show size = (slice data start stop).length by omega]
  exact leBytes_leNat _

theorem leNat_slice_lt {start stop size : Nat} (hstop : stop ≤ data.length)
    (hsize : start + size = stop) : leNat (slice data start stop) < 256 ^ size := by
  have hlength := slice_length hstop (show start ≤ stop by omega)
  rw [show size = (slice data start stop).length by omega]
  exact leNat_lt _

/-- An entry that is read from the bytes is written back as these bytes. -/
theorem encode_of_read {offset size : Nat} (hheader : offset + 7 + size ≤ data.length)
    (hsize : leNat (slice data (offset + 3) (offset + 7)) = size)
    : (ConciseEntry.mk (leNat (slice data offset (offset + 2)))
        (leNat (slice data (offset + 2) (offset + 3)))
        (slice data (offset + 7) (offset + 7 + size))).encode
      = slice data offset (offset + 7 + size) := by
  have hlength : (slice data (offset + 7) (offset + 7 + size)).length = size := by
    rw [slice_length hheader (by omega)]
    omega
  simp only [ConciseEntry.encode, hlength]
  rw [leBytes_slice (by omega) rfl, leBytes_slice (by omega) rfl, ← hsize,
    leBytes_slice (by omega) rfl]
  rw [slice_append (by omega) (by omega), slice_append (by omega) (by omega),
    slice_append (by omega) (by omega)]

/-- The entries the loop adds are those that stand in the bytes it reads. -/
theorem parseEntries_ok {todo entryNo offset stop : Nat} {entries result : List ConciseEntry}
    (hoffset : offset ≤ data.length)
    (h : parseEntries data todo entryNo offset entries = .ok (result, stop))
    : ∃ new : List ConciseEntry, result = entries ++ new ∧ new.length = todo ∧ offset ≤ stop
      ∧ stop ≤ data.length ∧ slice data offset stop = new.flatMap (·.encode)
      ∧ ∀ entry ∈ new, entry.Fits := by
  induction todo generalizing entryNo offset entries with
  | zero =>
    simp only [parseEntries, Except.ok.injEq, Prod.mk.injEq] at h
    obtain ⟨rfl, rfl⟩ := h
    exact ⟨[], by simp [slice, hoffset]⟩
  | succ todo ih =>
    simp only [parseEntries] at h
    split at h
    next => cases h
    next hheader =>
      split at h
      next => cases h
      next hvalue =>
        obtain ⟨new, hresult, hlength, hle, hstop, hbytes, hfits⟩ := ih (by omega) h
        have hencode := encode_of_read (show offset + 7
          + leNat (slice data (offset + 3) (offset + 7)) ≤ data.length by omega) rfl
        rw [List.append_assoc, List.singleton_append] at hresult
        refine ⟨_, hresult, ?_, by omega, hstop, ?_, ?_⟩
        . simp [hlength]
        . rw [List.flatMap_cons, hencode, ← hbytes, slice_append (by omega) hle]
        . intro entry hentry
          cases List.mem_cons.mp hentry with
          | inl heq =>
            subst heq
            have hindex : leNat (slice data offset (offset + 2)) < 256 ^ 2 :=
              leNat_slice_lt (by omega) rfl
            have hsubIndex : leNat (slice data (offset + 2) (offset + 3)) < 256 ^ 1 :=
              leNat_slice_lt (by omega) rfl
            have hsize : leNat (slice data (offset + 3) (offset + 7)) < 256 ^ 4 :=
              leNat_slice_lt (by omega) rfl
            have hvalueLength := slice_length (show offset + 7
              + leNat (slice data (offset + 3) (offset + 7)) ≤ data.length by omega)
              (Nat.le_add_right _ _)
            refine ⟨hindex, hsubIndex, ?_⟩
            rw [hvalueLength, Nat.add_sub_cancel_left]
            exact hsize
          | inr hmem => exact hfits entry hmem

/-- The whole of an accepted concise DCF. -/
def encodeDcf (entries : List ConciseEntry) : List UInt8 :=
  leBytes 4 entries.length ++ entries.flatMap (·.encode)

/-- An accepted concise DCF is its entries behind their number. -/
theorem parseConciseDcf_ok {entries : List ConciseEntry} (h : parseConciseDcf data = .ok entries)
    : 4 ≤ data.length ∧ entries.length = loadU32 data 0 ∧ entries ≠ [] ∧ encodeDcf entries = data
      ∧ ∀ entry ∈ entries, entry.Fits := by
  simp only [parseConciseDcf] at h
  split at h
  next => cases h
  next hshort =>
    split at h
    next => cases h
    next hcount =>
      split at h
      next => cases h
      next result offset hparse =>
        split at h
        next => cases h
        next hoffset =>
          simp only [Except.ok.injEq] at h
          subst h
          obtain ⟨new, hresult, hlength, -, -, hbytes, hfits⟩ := parseEntries_ok (by omega) hparse
          rw [List.nil_append] at hresult
          subst hresult
          have hall : data = slice data 0 data.length := by simp [slice]
          refine ⟨by omega, hlength, ?_, ?_, hfits⟩
          . intro hnil
            rw [hnil] at hlength
            exact hcount hlength.symm
          . rw [encodeDcf, hlength, loadU32, leBytes_slice (by omega) rfl, ← hbytes,
              slice_append (by omega) (by omega), not_not.mp hoffset, ← hall]

/-- The target accepts what the host tool parses, with the same number of entries. -/
theorem cfgValidateDcf_eq (hw : 32 ≤ w) (hdata : data.length < 2 ^ w)
    : cfgValidateDcf w data = (parseConciseDcf data).toOption.map (·.length) := by
  simp only [cfgValidateDcf, parseConciseDcf]
  split
  next => rfl
  next hshort =>
    rw [cfgLoadU32_toNat (by omega), loadU32]
    split
    next => rfl
    next hcount =>
      rw [validateEntries_eq hw hdata _ 1 4 [] (by omega)]
      cases hparse : parseEntries data (leNat (slice data 0 (0 + 4))) 1 4 [] with
      | error err => rfl
      | ok p =>
        obtain ⟨result, offset⟩ := p
        obtain ⟨new, hresult, hlength, -⟩ := parseEntries_ok (by omega) hparse
        simp only [Except.toOption, Option.map_some]
        split
        next => rfl
        next => simp [hresult, hlength]

/-- No entry stands in the DCF that holds but the count 0. -/
theorem compactParse_of_zero (hlength : 4 ≤ data.length) (hcount : leNat (slice data 0 4) = 0)
    : compactParseConciseDcf data
      = if data.length = 4 then .ok [] else .error (.trailing (data.length - 4) 0) := by
  simp only [compactParseConciseDcf, hcount, compactEntries]
  split
  next => omega
  next => split <;> split <;> first | rfl | omega

theorem eq_zero_of_leNat {bytes : List UInt8} (h : leNat bytes = 0)
    : bytes = List.replicate bytes.length 0 := by
  induction bytes with
  | nil => rfl
  | cons byte rest ih =>
    simp only [leNat] at h
    have hbyte : byte = 0 := UInt8.toNat_inj.mp (show byte.toNat = 0 by omega)
    rw [List.length_cons, List.replicate_succ, ← ih (by omega), hbyte]

/--
The tool that compacts the DCF of the Master reads the same entries, and also accepts the DCF without
entries.
-/
theorem compactParseConciseDcf_eq
    : (compactParseConciseDcf data).toOption
      = if data = [0, 0, 0, 0] then
          some []
        else
          (parseConciseDcf data).toOption.map (·.map (·.compact)) := by
  by_cases hshort : data.length < 4
  case pos =>
    have hne : data ≠ [0, 0, 0, 0] := by
      intro heq
      simp [heq] at hshort
    simp [compactParseConciseDcf, parseConciseDcf, hshort, hne, Except.toOption]
  case neg =>
    by_cases hcount : leNat (slice data 0 4) = 0
    case pos =>
      rw [compactParse_of_zero (by omega) hcount]
      have hparse : parseConciseDcf data = .error .noEntries := by
        simp [parseConciseDcf, hshort, loadU32, hcount]
      by_cases hlength : data.length = 4
      case pos =>
        have hdata : data = [0, 0, 0, 0] := by
          have hall : slice data 0 4 = data := List.take_of_length_le (by simp [hlength])
          rw [hall] at hcount
          rw [eq_zero_of_leNat hcount, hlength]
          rfl
        simp [hdata, Except.toOption]
      case neg =>
        have hne : data ≠ [0, 0, 0, 0] := by
          intro heq
          simp [heq] at hlength
        simp [hlength, hne, hparse, Except.toOption]
    case neg =>
      have hne : data ≠ [0, 0, 0, 0] := by
        intro heq
        rw [heq] at hcount
        exact hcount rfl
      have hentries := @compactEntries_eq data (leNat (slice data 0 4)) (leNat (slice data 0 4)) 1 0 4 []
      simp only [compactParseConciseDcf, parseConciseDcf, hshort, loadU32, Nat.zero_add, hcount, hne,
        if_false]
      rw [List.map_nil] at hentries
      cases hparse : parseEntries data (leNat (slice data 0 4)) 1 4 [] with
      | error err =>
        cases hcompact : compactEntries data (leNat (slice data 0 4)) (leNat (slice data 0 4)) 0 4 [] with
        | error => rfl
        | ok => simp [hparse, hcompact, Except.toOption] at hentries
      | ok p =>
        cases hcompact : compactEntries data (leNat (slice data 0 4)) (leNat (slice data 0 4)) 0 4 [] with
        | error => simp [hparse, hcompact, Except.toOption] at hentries
        | ok q =>
          simp only [hparse, hcompact, Except.toOption, Option.map_some, Option.some.injEq] at hentries
          subst hentries
          simp only
          split <;> rfl

end

end LelyRtt.Dcf
