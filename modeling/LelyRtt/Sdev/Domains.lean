import LelyRtt.Sdev.Defaults
import LelyRtt.Text.Marks

/-!
This module contains the writing of DOMAIN values into generated C, and the proof that the bytes of an
initializer are found again in it.
-/

namespace LelyRtt.Sdev.Domain

open Text

abbrev Line : Type := List Char

/-- The word characters of a regular expression, of which the tool relies on those of ASCII. -/
structure WordChar where
  word : Char → Bool
  ascii : ∀ c, c.toNat < 128 → word c = isWord c

structure DomainValue where
  subidx : Nat
  data : List UInt8
  deriving DecidableEq, Repr

/-- The errors that the tool raises. -/
inductive Error where
  | missingObject
  | missingSub (subidx : Nat)
  | noValue (subidx : Nat)
  | unexpected
  | mismatch (subidx : Nat)
  | noFlags (subidx : Nat)
  | fileBacked
  deriving DecidableEq, Repr

/-- `C_OBJECT_RE` -/
def cObject (line : Line) : Option Nat := (matchHexField ".idx".toList line).map (natOfDigits 16)

/-- `C_SUB_RE` -/
def cSub (line : Line) : Option Nat := (matchHexField ".subidx".toList line).map (natOfDigits 16)

/-- `_find_object_range` -/
def findObjectRange (lines : List Line) (index : Nat) : Except Error (Nat × Nat) :=
  match findRange cObject index lines 0 none with
  | some range => .ok range
  | none => .error .missingObject

/-- `_find_sub_range` -/
def findSubRange (lines : List Line) (start stop subidx : Nat) : Except Error (Nat × Nat) :=
  match findRange cSub subidx (segment lines start stop) start none with
  | some range => .ok range
  | none => .error (.missingSub subidx)

/-- Both searches for a sub-object of 1F22. -/
def domainRange (lines : List Line) (subidx : Nat) : Except Error (Nat × Nat) := do
  let (start, stop) ← findObjectRange lines 0x1f22
  findSubRange lines start stop subidx

/-- The blanks at the beginning of a line. -/
def indent (line : Line) : List Char := line.takeWhile isSpace

/-- A byte as it is written in C. -/
def byteLiteral (byte : UInt8) : List Char :=
  ['0', 'x'] ++ (Nat.toDigits 16 byte.toNat).leftpad 2 '0'

/-- The line of an initializer for the bytes of `data` from `offset`. -/
def dataLine (indent newline : List Char) (data : List UInt8) (offset : Nat) : Line :=
  let chunk := segment data offset (offset + 8)
  let suffix := if offset + chunk.length < data.length then [','] else []
  indent ++ ('\t' :: ([',', ' '].intercalate (chunk.map byteLiteral) ++ (suffix ++ newline)))

/-- `_domain_initializer` -/
def domainInitializer (indent : List Char) (data : List UInt8) (newline : List Char) : List Line :=
  (indent ++ (".val = \x7b .dom = CO_DOMAIN_C(co_unsigned8_t, \x7b".toList ++ newline))
    :: ((List.range ((data.length + 7) / 8)).map fun i => dataLine indent newline data (8 * i))
      ++ [indent ++ ("\x7d) \x7d,".toList ++ newline)]

/-- The bytes whose literal the text begins with. -/
def hexToken (w : WordChar) : List Char → Option UInt8
  | '0' :: 'x' :: high :: low :: rest =>
    match hexDigit high, hexDigit low with
    | some h, some l => if rest.head?.any w.word then none else some (UInt8.ofNat (16 * h + l))
    | _, _ => none
  | _ => none

/-- The literals of a line; no other literal begins inside one, since it ends at the end of a word. -/
def hexTokens (w : WordChar) : Line → List UInt8
  | [] => []
  | c :: rest => (hexToken w (c :: rest)).toList ++ hexTokens w rest

/-- The line closes an initializer. -/
def closes (line : Line) : Bool := contains "\x7d) \x7d,".toList line

/-- The loop of `_extract_initializer_bytes` over the lines behind the first. -/
def bytesOf (w : WordChar) : List Line → List UInt8
  | [] => []
  | line :: lines => hexTokens w line ++ if closes line then [] else bytesOf w lines

/-- `_extract_initializer_bytes` -/
def extractInitializerBytes (w : WordChar) (lines : List Line) (start stop : Nat)
    : Except Error (Option (List UInt8)) :=
  let line := lines.getD start []
  if contains ".dom = NULL".toList line then
    .ok none
  else if !contains "CO_DOMAIN_C".toList line then
    .error .unexpected
  else
    .ok (some (bytesOf w (segment lines (start + 1) stop)))

/-- The first line of a range that contains a text. -/
def firstLine (text : List Char) (lines : List Line) (start stop : Nat) : Option Nat :=
  ((segment lines start stop).findIdx? (contains text)).map (start + ·)

/-- The line behind an initializer. -/
def initializerEnd (lines : List Line) (start stop : Nat) : Nat :=
  if contains "CO_DOMAIN_C".toList (lines.getD start []) then
    -- the loop goes on behind a line that closes it, but not over the end of the sub-object
    (((segment lines start stop).findIdx? closes).map fun i => start + i + 1).getD stop
  else
    start + 1

/-- The flag line that is put in behind `line`. -/
def flagLine (line : Line) (newline : List Char) : Line :=
  indent line ++ ('\t' :: ("| CO_OBJ_FLAGS_PARAMETER_VALUE".toList ++ newline))

abbrev State : Type := List Line × List Nat

/-- The first half of the loop of `materialize`: the initializer. -/
def materializeValue (w : WordChar) (newline : List Char) (state : State) (domain : DomainValue)
    : Except Error State := do
  let (lines, changed) := state
  let (start, stop) ← domainRange lines domain.subidx
  match firstLine ".val =".toList lines start stop with
  | none => .error (.noValue domain.subidx)
  | some valStart =>
    let valEnd := initializerEnd lines valStart stop
    match ← extractInitializerBytes w lines valStart valEnd with
    | some current => if current ≠ domain.data then .error (.mismatch domain.subidx) else pure state
    | none =>
      pure (lines.take valStart ++ (domainInitializer (indent (lines.getD valStart [])) domain.data newline
        ++ lines.drop valEnd), changed ++ [domain.subidx])

/-- The second half of the loop of `materialize`: the flags. -/
def materializeFlags (newline : List Char) (state : State) (domain : DomainValue) : Except Error State := do
  let (lines, changed) := state
  let (start, stop) ← domainRange lines domain.subidx
  match firstLine ".flags = 0".toList lines start stop with
  | none => .error (.noFlags domain.subidx)
  | some flags =>
    if (segment lines flags stop).any (contains "CO_OBJ_FLAGS_PARAMETER_VALUE".toList) then
      pure state
    else
      pure (lines.take (flags + 1) ++ (flagLine (lines.getD flags []) newline :: lines.drop (flags + 1)),
        if domain.subidx ∈ changed then changed else changed ++ [domain.subidx])

/-- The loop of `materialize`. -/
def materializeDomain (w : WordChar) (newline : List Char) (state : State) (domain : DomainValue)
    : Except Error State := do
  let state ← materializeValue w newline state domain
  materializeFlags newline state domain

/-- The line end that a text uses. -/
def newlineFor (text : List Char) : List Char :=
  if contains ['\r', '\n'] text then ['\r', '\n'] else ['\n']

/-- `materialize` -/
def materialize (w : WordChar) (cText : List Char) (domains : List DomainValue)
    : Except Error (List Char × List Nat) := do
  let (lines, changed) ← domains.foldlM (materializeDomain w (newlineFor cText)) (splitLines cText, [])
  let output := lines.flatten
  if contains "CO_OBJ_FLAGS_UPLOAD_FILE".toList output || contains "CO_OBJ_FLAGS_DOWNLOAD_FILE".toList output then
    .error .fileBacked
  else
    pure (output, changed)

/-! ### The bytes of an initializer -/

/-- The line ends that the tool writes. -/
def Newline (newline : List Char) : Prop := newline = ['\n'] ∨ newline = ['\r', '\n']

theorem newline_newlineFor (text : List Char) : Newline (newlineFor text) := by
  unfold newlineFor
  split
  . exact .inr rfl
  . exact .inl rfl

section

variable {w : WordChar} {newline s : List Char} {data chunk : List UInt8} {line : Line}

theorem WordChar.comma (w : WordChar) : w.word ',' = false := by
  rw [w.ascii ',' (by decide)]
  decide

theorem Newline.head (h : Newline newline) (w : WordChar) : newline.head?.any w.word = false := by
  obtain rfl | rfl := h
  . change w.word '\n' = false
    rw [w.ascii '\n' (by decide)]
    decide
  . change w.word '\r' = false
    rw [w.ascii '\r' (by decide)]
    decide

theorem Newline.blank (h : Newline newline) : Blank newline := by
  obtain rfl | rfl := h <;> simp [Blank, isSpace]

theorem blank_indent (line : Line) : Blank (indent line) := fun _ hc => List.mem_takeWhile_imp hc

theorem hexTokens_cons {c : Char} (hc : c ≠ '0') : hexTokens w (c :: s) = hexTokens w s := by
  rw [hexTokens, hexToken]
  . rfl
  . rintro _ _ _ heq
    exact hc (List.cons.inj heq).1

theorem hexTokens_append {a : List Char} (h : '0' ∉ a) : hexTokens w (a ++ s) = hexTokens w s := by
  induction a with
  | nil => rfl
  | cons c a ih =>
    simp only [List.mem_cons, not_or] at h
    rw [List.cons_append, hexTokens_cons (fun heq => h.1 heq.symm), ih h.2]

theorem hexTokens_nil (h : '0' ∉ s) : hexTokens w s = [] := by
  have happend := hexTokens_append (w := w) (s := []) h
  rwa [List.append_nil] at happend

theorem zero_not_mem {a : List Char} (h : Blank a) : '0' ∉ a := by
  intro hmem
  exact absurd (h '0' hmem) (by decide)

/-- A digit is a word character of ASCII, and no letter `x`. -/
theorem digit_word {d : Nat} (h : d < 16) : isWord d.digitChar = true ∧ d.digitChar ≠ 'x' := by
  have hall : ∀ d : Fin 16, isWord d.1.digitChar = true ∧ d.1.digitChar ≠ 'x' := by decide
  exact hall ⟨d, h⟩

/-- Where no `x` follows, a zero begins no literal. -/
theorem hexTokens_digit {c : Char} (h : s.head? ≠ some 'x') : hexTokens w (c :: s) = hexTokens w s := by
  rw [hexTokens, hexToken]
  . rfl
  . rintro high low rest heq
    rw [(List.cons.inj heq).2] at h
    exact h rfl

theorem hexTokens_byte (byte : UInt8) (hs : s.head?.any w.word = false)
    : hexTokens w (byteLiteral byte ++ s) = byte :: hexTokens w s := by
  have hbyte := byte.toNat_lt
  have hhigh := digit_word (d := byte.toNat / 16) (by omega)
  have hlow := digit_word (d := byte.toNat % 16) (by omega)
  rw [byteLiteral, toDigits_byte]
  change hexTokens w ('0' :: 'x' :: _ :: _ :: s) = _
  have hx : s.head? ≠ some 'x' := by
    intro hhead
    rw [hhead] at hs
    change w.word 'x' = false at hs
    rw [w.ascii 'x' (by decide)] at hs
    exact absurd hs (by decide)
  rw [hexTokens, hexTokens_cons (by decide), hexTokens_digit (by simp [hlow.2]), hexTokens_digit hx]
  rw [hexToken, hexDigit_digitChar (by omega), hexDigit_digitChar (by omega)]
  simp only [hs, Bool.false_eq_true, if_false, Option.toList_some, List.singleton_append, List.cons.injEq,
    and_true]
  apply UInt8.toNat_inj.mp
  rw [UInt8.toNat_ofNat']
  omega

theorem hexTokens_chunk (chunk : List UInt8) (hs : s.head?.any w.word = false)
    : hexTokens w ([',', ' '].intercalate (chunk.map byteLiteral) ++ s) = chunk ++ hexTokens w s := by
  induction chunk with
  | nil => rfl
  | cons byte chunk ih =>
    cases chunk with
    | nil =>
      rw [List.map_singleton, List.intercalate_singleton, hexTokens_byte byte hs]
      rfl
    | cons byte' chunk =>
      rw [List.map_cons, List.map_cons, List.intercalate_cons_cons, ← List.map_cons, List.append_assoc,
        List.append_assoc, hexTokens_byte, hexTokens_append (by decide), ih]
      . rfl
      . exact w.comma

theorem hexTokens_dataLine (hnewline : Newline newline) (line : Line) (data : List UInt8) (offset : Nat)
    : hexTokens w (dataLine (indent line) newline data offset) = segment data offset (offset + 8) := by
  have hblank : '0' ∉ newline := zero_not_mem hnewline.blank
  rw [dataLine, hexTokens_append (zero_not_mem (blank_indent line)), hexTokens_cons (by decide)]
  split
  . rw [hexTokens_chunk _ (by exact w.comma), hexTokens_append (by decide), hexTokens_nil hblank, List.append_nil]
  . rw [List.nil_append, hexTokens_chunk _ (hnewline.head w), hexTokens_nil hblank, List.append_nil]

/-- The characters of a data line between the blanks before it and its end. -/
theorem dataLine_split (indent newline : List Char) (data : List UInt8) (offset : Nat)
    : ∃ s, dataLine indent newline data offset = indent ++ (s ++ newline)
      ∧ ∀ c ∈ s, isWord c = true ∨ c = ',' ∨ c = ' ' ∨ c = '\t' := by
  have hbyte {byte : UInt8} {c : Char} (hc : c ∈ byteLiteral byte) : isWord c = true := by
    have hlt := byte.toNat_lt
    rw [byteLiteral, toDigits_byte] at hc
    simp only [List.cons_append, List.nil_append, List.mem_cons, List.not_mem_nil, or_false] at hc
    obtain rfl | rfl | rfl | rfl := hc
    . decide
    . decide
    . exact (digit_word (by omega)).1
    . exact (digit_word (by omega)).1
  have hchunk {chunk : List UInt8} {c : Char} (hc : c ∈ [',', ' '].intercalate (chunk.map byteLiteral))
      : isWord c = true ∨ c = ',' ∨ c = ' ' ∨ c = '\t' := by
    induction chunk with
    | nil => cases hc
    | cons byte chunk ih =>
      cases chunk with
      | nil =>
        rw [List.map_singleton, List.intercalate_singleton] at hc
        exact .inl (hbyte hc)
      | cons byte' chunk =>
        rw [List.map_cons, List.map_cons, List.intercalate_cons_cons, ← List.map_cons] at hc
        obtain hc | hc := List.mem_append.mp hc
        . obtain hc | hc := List.mem_append.mp hc
          . exact .inl (hbyte hc)
          . simp only [List.mem_cons, List.not_mem_nil, or_false] at hc
            exact hc.elim (fun h => .inr (.inl h)) fun h => .inr (.inr (.inl h))
        . exact ih hc
  refine ⟨'\t' :: ([',', ' '].intercalate ((segment data offset (offset + 8)).map byteLiteral)
    ++ if offset + (segment data offset (offset + 8)).length < data.length then [','] else []), ?_, ?_⟩
  . simp only [dataLine, List.cons_append, List.append_assoc]
  . intro c hc
    obtain rfl | hc := List.mem_cons.mp hc
    . exact .inr (.inr (.inr rfl))
    . obtain hc | hc := List.mem_append.mp hc
      . exact hchunk hc
      . split at hc
        . exact .inr (.inl (List.mem_singleton.mp hc))
        . cases hc

/-- What stands in no data line. -/
theorem not_mem_dataLine (hnewline : Newline newline) {offset : Nat} {c : Char}
    (hc : isSpace c = false ∧ isWord c = false ∧ c ≠ ',')
    : c ∉ dataLine (indent line) newline data offset := by
  have hblank {s : List Char} (hs : Blank s) : c ∉ s := by
    intro hmem
    rw [hs c hmem] at hc
    cases hc.1
  obtain ⟨s, hline, hs⟩ := dataLine_split (indent line) newline data offset
  rw [hline]
  simp only [List.mem_append, not_or]
  refine ⟨hblank (blank_indent line), fun hmem => ?_, hblank hnewline.blank⟩
  obtain h | h | rfl | rfl := hs c hmem
  . rw [hc.2.1] at h
    cases h
  . exact hc.2.2 h
  . exact absurd hc.1 (by decide)
  . exact absurd hc.1 (by decide)

/-- The bytes of an initializer are found in it. -/
theorem bytesOf_domainInitializer (hnewline : Newline newline) (line : Line) (data : List UInt8)
    (rest : List Line) : bytesOf w ((domainInitializer (indent line) data newline).tail ++ rest) = data := by
  have hlines (offsets : List Nat) (lines : List Line)
      : bytesOf w ((offsets.map fun i => dataLine (indent line) newline data (8 * i)) ++ lines)
        = offsets.flatMap (fun i => segment data (8 * i) (8 * i + 8)) ++ bytesOf w lines := by
    induction offsets with
    | nil => rfl
    | cons i offsets ih =>
      have hcloses : closes (dataLine (indent line) newline data (8 * i)) = false :=
        contains_of_not_mem '}' (by decide) (not_mem_dataLine hnewline (by decide))
      rw [List.map_cons, List.cons_append, bytesOf, hexTokens_dataLine hnewline, hcloses, ih,
        List.flatMap_cons, List.append_assoc]
      rfl
  have hclosing : bytesOf w ((indent line ++ ("\x7d) \x7d,".toList ++ newline)) :: rest) = [] := by
    have hcloses : closes (indent line ++ ("\x7d) \x7d,".toList ++ newline)) = true := contains_append _ _ _
    have htokens : hexTokens w (indent line ++ ("\x7d) \x7d,".toList ++ newline)) = [] := by
      rw [hexTokens_append (zero_not_mem (blank_indent line)), hexTokens_append (by decide),
        hexTokens_nil (zero_not_mem hnewline.blank)]
    rw [bytesOf, hcloses, htokens]
    rfl
  rw [domainInitializer, List.cons_append, List.tail_cons, List.append_assoc, hlines, List.singleton_append,
    hclosing, segments_flatMap, List.append_nil]
  exact List.take_of_length_le (by omega)

end

end LelyRtt.Sdev.Domain
