import LelyRtt.Dcf.Section
import LelyRtt.Text.Dict
import Mathlib.Algebra.Order.Ring.Nat

/-!
This module contains the repair of the defaults of compact sub-objects in generated C, and the proof
that it changes exactly those defaults.
-/

namespace LelyRtt.Sdev

open Text Dcf

/-! ### The DCF -/

/-- `KEY_VALUE_RE` of a line without its end. -/
def keyValue (line : List Char) : Option (List Char × List Char) :=
  let key := line.takeWhile (· ≠ '=')
  match line.dropWhile (· ≠ '=') with
  | [] => none
  | _ :: value => if key = [] then none else some (strip key, strip value)

/-- The entries of `TYPE_INFO`: type, field, digits, suffix. -/
structure TypeInfo where
  type : List Char
  field : List Char
  width : Nat
  suffix : List Char
  deriving DecidableEq, Repr

/-- `TYPE_INFO` -/
def typeInfo (dataType : Nat) : Option TypeInfo :=
  if dataType = 0x0005 then some ⟨"CO_DEFTYPE_UNSIGNED8".toList, "u8".toList, 2, []⟩
  else if dataType = 0x0006 then some ⟨"CO_DEFTYPE_UNSIGNED16".toList, "u16".toList, 4, []⟩
  else if dataType = 0x0007 then some ⟨"CO_DEFTYPE_UNSIGNED32".toList, "u32".toList, 8, "lu".toList⟩
  else none

/-- `CompactDefault`, with the entry of its type. -/
structure CompactDefault where
  index : Nat
  count : Nat
  dataType : Nat
  info : TypeInfo
  value : Nat
  deriving DecidableEq, Repr

/-- The errors that the tool raises. -/
inductive Error where
  | compactSubObj (name : List Char)
  | defaultValue (name text : List Char)
  | unsupported (name text : List Char)
  | tooLarge (value dataType : Nat)
  | missingObject (index : Nat)
  | missingSub (index subidx : Nat)
  | wrongType (index subidx : Nat) (type : Option (List Char)) (expected : List Char)
  | noDefault (index subidx : Nat)
  | wrongField (index subidx : Nat) (field expected : List Char)
  deriving DecidableEq, Repr

/-- The sections of a DCF with their keys and values. -/
abbrev Sections : Type := List (List Char × List (List Char × List Char))

/-- One line of the loop over the lines of the DCF. -/
def readLine (cf : CaseFold) (state : Sections × Option (List Char)) (line : List Char)
    : Sections × Option (List Char) :=
  match sectionName line with
  | some name => (dictSet state.1 (cf.casefold name) [], some name)
  | none =>
    match state.2 with
    | none => state
    | some current =>
      match keyValue line with
      | none => state
      | some (key, value) =>
        let values := (state.1.lookup (cf.casefold current)).getD []
        (dictSet state.1 (cf.casefold current) (dictSet values (cf.casefold key) value), some current)

/-- The sections of a DCF. -/
def readSections (cf : CaseFold) (text : List Char) : Sections :=
  (((splitLines text).map (·.rdropWhile isBoundary)).foldl (readLine cf) ([], none)).1

/-- `[0-9a-f]{4}` -/
def isObjectName (name : List Char) : Bool :=
  name.length = 4 ∧ name.all fun c => c.isDigit || ('a' ≤ c && c ≤ 'f')

/-- What `parse_compact_defaults` makes of one section. -/
def compactDefault (name : List Char) (values : List (List Char × List Char))
    : Except Error (Option CompactDefault) :=
  if !isObjectName name then
    .ok none
  else
    match values.lookup "compactsubobj".toList, values.lookup "defaultvalue".toList,
      values.lookup "datatype".toList with
    | some compactText, some defaultText, some dataTypeText =>
      match parseInt compactText with
      | none | some 0 => .error (.compactSubObj name)
      | some count =>
        match parseInt defaultText with
        | none => .error (.defaultValue name defaultText)
        | some value =>
          match parseInt dataTypeText with
          | none => .error (.unsupported name dataTypeText)
          | some dataType =>
            match typeInfo dataType with
            | none => .error (.unsupported name dataTypeText)
            | some info => .ok (some ⟨natOfDigits 16 name, count, dataType, info, value⟩)
    | _, _, _ => .ok none

/-- The loop of `parse_compact_defaults` over the sections. -/
def compactDefaults : Sections → Except Error (List CompactDefault)
  | [] => .ok []
  | (name, values) :: sections => do
    let item ← compactDefault name values
    let items ← compactDefaults sections
    pure (item.toList ++ items)

/-- `parse_compact_defaults` -/
def parseCompactDefaults (cf : CaseFold) (text : List Char) : Except Error (List CompactDefault) :=
  compactDefaults (readSections cf text)

/-! ### The generated C -/

/-- `OBJECT_INDEX_RE` -/
def objectIndex (line : List Char) : Option Nat :=
  (matchHexField ".idx".toList (rstripEnd line)).bind fun digits =>
    if digits.length = 4 then some (natOfDigits 16 digits) else none

/-- `SUBINDEX_RE` -/
def subIndex (line : List Char) : Option Nat :=
  (matchHexField ".subidx".toList (rstripEnd line)).bind fun digits =>
    if digits.length = 2 then some (natOfDigits 16 digits) else none

/-- `[A-Z0-9_]` -/
def isUpper (c : Char) : Bool :=
  let n := c.toNat
  (48 ≤ n ∧ n ≤ 57) ∨ (65 ≤ n ∧ n ≤ 90) ∨ n = 95

/-- `TYPE_RE` -/
def typeName (line : List Char) : Option (List Char) := do
  let s ← skipLit ".type".toList line
  let s ← skipLit ['='] s
  let s ← skipLit "CO_DEFTYPE_".toList s
  let name := s.takeWhile isUpper
  let s ← dropLit [','] (s.dropWhile isUpper)
  if name = [] ∨ !s.all isSpace then none else some ("CO_DEFTYPE_".toList ++ name)

/-- `[A-Za-z0-9_]` -/
def isWord (c : Char) : Bool :=
  let n := c.toNat
  (48 ≤ n ∧ n ≤ 57) ∨ (65 ≤ n ∧ n ≤ 90) ∨ n = 95 ∨ (97 ≤ n ∧ n ≤ 122)

/-- The groups of `DEFAULT_RE`; the blanks behind the comma take the line end. -/
structure DefaultMatch where
  head : List Char
  field : List Char
  value : List Char
  rest : List Char
  deriving DecidableEq, Repr

/-- The first group of `DEFAULT_RE`: the field in it, and what follows the group. -/
def skipHead (line : List Char) : Option (List Char × List Char) := do
  let s ← skipLit ".def".toList line
  let s ← skipLit ['='] s
  let s ← skipLit ['{'] s
  let s ← skipLit ['.'] s
  let field := s.takeWhile isWord
  let s ← skipLit ['='] (s.dropWhile isWord)
  if field = [] then none else some (field, lstrip s)

/-- `DEFAULT_RE` -/
def matchDefault (line : List Char) : Option DefaultMatch := do
  let (field, tail) ← skipHead line
  let closed := rstrip tail
  if ['}', ','].isSuffixOf closed then
    let value := rstrip (closed.take (closed.length - 2))
    some ⟨line.take (line.length - tail.length), field, value, tail.drop value.length⟩
  else
    none

/-- A literal of `width` digits with a suffix. -/
def formatLiteral (info : TypeInfo) (value : Nat) : List Char :=
  ['0', 'x'] ++ ((Nat.toDigits 16 value).map Char.toUpper).leftpad info.width '0' ++ info.suffix

/-- `format_default` -/
def formatDefault (item : CompactDefault) : Except Error (List Char) :=
  if item.value > 2 ^ (item.info.width * 4) - 1 then
    .error (.tooLarge item.value item.dataType)
  else
    .ok (formatLiteral item.info item.value)

/-- A dictionary from the values of the marked lines from `start` to `stop` to their places. -/
def markedLines (mark : List Char → Option Nat) (lines : List (List Char)) (start stop : Nat)
    : List (Nat × Nat) :=
  dictOf ((List.range' start (stop - start)).filterMap fun i => (mark (lines.getD i [])).map fun k => (k, i))

/-- Each object with the line of the next one, in the order of their lines. -/
def objectEnds (length : Nat) : List (Nat × Nat) → List (Nat × Nat)
  | [] => []
  | [(_, index)] => [(index, length)]
  | (_, index) :: (line, index') :: rest => (index, line) :: objectEnds length ((line, index') :: rest)

/-- The order of pairs that `sorted` uses. -/
def pairLe (x y : Nat × Nat) : Bool := x.1 < y.1 || (x.1 = y.1 && x.2 ≤ y.2)

/-- Where each object of the C text starts and ends. -/
structure Objects where
  starts : List (Nat × Nat)
  ends : List (Nat × Nat)

def findObjects (lines : List (List Char)) : Objects :=
  let starts := markedLines objectIndex lines 0 lines.length
  ⟨starts, objectEnds lines.length ((starts.map fun entry => (entry.2, entry.1)).mergeSort pairLe)⟩

/-- The search for the first default of a sub-object, and the type that was found before it. -/
def scanDefault (lines : List (List Char))
    : List Nat → Option (List Char) → Option (List Char) × Option (Nat × DefaultMatch)
  | [], type => (type, none)
  | i :: rest, type =>
    let line := lines.getD i []
    let type := (typeName (rstripEnd line)).or type
    match matchDefault line with
    | some m => (type, some (i, m))
    | none => scanDefault lines rest type

/-- A change that is reported. -/
structure Change where
  index : Nat
  subidx : Nat
  current : List Char
  expected : List Char
  deriving DecidableEq, Repr

abbrev State : Type := List (List Char) × List Change

/-- The range of a sub-object between the sub-index lines of its object. -/
def subRange (subLines : List (Nat × Nat)) (stop subidx : Nat) : Option (Nat × Nat) :=
  (subLines.lookup subidx).map fun start =>
    let later := (subLines.filter fun entry => entry.1 > subidx).map (·.2)
    (start, later.min?.getD stop)

/-- The inner loop of `normalize_c_text` for one sub-index. -/
def normalizeSub (item : CompactDefault) (expected : List Char) (subLines : List (Nat × Nat)) (stop : Nat)
    (state : State) (subidx : Nat) : Except Error State :=
  match subRange subLines stop subidx with
  | none => .error (.missingSub item.index subidx)
  | some (start, stop) =>
    let (type, found) := scanDefault state.1 (List.range' start (stop - start)) none
    if type ≠ some item.info.type then
      .error (.wrongType item.index subidx type item.info.type)
    else
      match found with
      | none => .error (.noDefault item.index subidx)
      | some (line, m) =>
        if m.field ≠ item.info.field then
          .error (.wrongField item.index subidx m.field item.info.field)
        else if strip m.value = expected then
          .ok state
        else
          .ok (state.1.set line (m.head ++ expected ++ m.rest),
            state.2 ++ [⟨item.index, subidx, strip m.value, expected⟩])

/-- The outer loop of `normalize_c_text` for one object. -/
def normalizeItem (objects : Objects) (state : State) (item : CompactDefault) : Except Error State :=
  match objects.starts.lookup item.index with
  | none => .error (.missingObject item.index)
  | some start => do
    let stop := (objects.ends.lookup item.index).getD 0
    let expected ← formatDefault item
    let subLines := markedLines subIndex state.1 start stop
    (List.range' 1 item.count).foldlM (normalizeSub item expected subLines stop) state

/-- `normalize_c_text` -/
def normalizeCText (cf : CaseFold) (dcfText cText : List Char) : Except Error (List Char × List Change) := do
  let items ← parseCompactDefaults cf dcfText
  if items = [] then
    pure (cText, [])
  else
    let lines := splitLines cText
    let (lines, changes) ← items.foldlM (normalizeItem (findObjects lines)) (lines, [])
    pure (lines.flatten, changes)

/-! ### The regular expression of defaults -/

/-- A text of the first group of `DEFAULT_RE` with `field` in it. -/
structure IsHead (field head : List Char) : Prop where
  ne_nil : field ≠ []
  word : ∀ c ∈ field, isWord c = true
  split : ∃ w₀ w₁ w₂ w₃ w₄ w₅, (Blank w₀ ∧ Blank w₁ ∧ Blank w₂ ∧ Blank w₃ ∧ Blank w₄ ∧ Blank w₅)
    ∧ head = w₀ ++ (".def".toList ++ (w₁ ++ (['='] ++ (w₂ ++ (['{'] ++ (w₃ ++ (['.'] ++ (field
      ++ (w₄ ++ (['='] ++ w₅))))))))))

theorem isWord_of_isSpace {c : Char} (h : isSpace c = true) : isWord c = false := by
  simp only [isSpace, decide_eq_true_eq] at h
  simp only [isWord, decide_eq_false_iff_not]
  omega

/-- A field is followed by blanks and an equals sign. -/
theorem takeWhile_field {field w r : List Char} (hword : ∀ c ∈ field, isWord c = true) (hw : Blank w)
    : (field ++ (w ++ ('=' :: r))).takeWhile isWord = field
      ∧ (field ++ (w ++ ('=' :: r))).dropWhile isWord = w ++ ('=' :: r) := by
  have hstop : ∀ c ∈ (w ++ ('=' :: r)).head?, isWord c = false := by
    intro c hc
    cases w with
    | nil =>
      cases hc
      decide
    | cons c' w =>
      cases hc
      exact isWord_of_isSpace (hw c List.mem_cons_self)
  rw [List.takeWhile_append_of_pos hword, List.dropWhile_append_of_pos hword]
  generalize w ++ ('=' :: r) = tail at hstop
  cases tail with
  | nil => simp
  | cons c tail =>
    have hc := hstop c rfl
    simp [hc]

theorem skipHead_eq_some {line field tail : List Char}
    : skipHead line = some (field, tail)
      ↔ Begins tail ∧ ∃ head, IsHead field head ∧ line = head ++ tail := by
  have hdef : Begins ".def".toList := begins_of_head (by decide)
  have hequals : Begins ['='] := begins_of_head (by decide)
  have hbrace : Begins ['{'] := begins_of_head (by decide)
  have hdot : Begins ['.'] := begins_of_head (by decide)
  unfold skipHead
  simp only [Option.bind_eq_bind, Option.bind_eq_some_iff, skipLit_eq_some hdef (by decide),
    skipLit_eq_some hequals (by decide), skipLit_eq_some hbrace (by decide),
    skipLit_eq_some hdot (by decide)]
  constructor
  . rintro ⟨s₀, ⟨w₀, hw₀, rfl⟩, s₁, ⟨w₁, hw₁, rfl⟩, s₂, ⟨w₂, hw₂, rfl⟩, s₃, ⟨w₃, hw₃, rfl⟩, s₄,
      ⟨w₄, hw₄, hrest⟩, hresult⟩
    split at hresult
    next => cases hresult
    next hne =>
      cases hresult
      obtain ⟨w₅, hw₅, hs₄⟩ := lstrip_split s₄
      refine ⟨begins_lstrip s₄, _, ⟨hne, fun c hc => List.mem_takeWhile_imp hc, w₀, w₁, w₂, w₃, w₄, w₅,
        ⟨hw₀, hw₁, hw₂, hw₃, hw₄, hw₅⟩, rfl⟩, ?_⟩
      have hs₃ : s₃ = s₃.takeWhile isWord ++ (w₄ ++ (['='] ++ s₄)) := by
        rw [← hrest, List.takeWhile_append_dropWhile]
      nth_rewrite 1 [hs₃, hs₄]
      simp only [List.append_assoc]
  . rintro ⟨htail, head, ⟨hne, hword, w₀, w₁, w₂, w₃, w₄, w₅, ⟨hw₀, hw₁, hw₂, hw₃, hw₄, hw₅⟩, rfl⟩, rfl⟩
    obtain ⟨htake, hdrop⟩ := takeWhile_field (r := w₅ ++ tail) hword hw₄
    refine ⟨_, ⟨w₀, hw₀, by simp only [List.append_assoc]; rfl⟩, _, ⟨w₁, hw₁, rfl⟩, _, ⟨w₂, hw₂, rfl⟩, _,
      ⟨w₃, hw₃, rfl⟩, w₅ ++ tail, ⟨w₄, hw₄, hdrop⟩, ?_⟩
    rw [htake, if_neg hne, lstrip_blank hw₅, lstrip_begins htail]

/-- What `DEFAULT_RE` makes of a line. -/
structure IsDefault (m : DefaultMatch) (line : List Char) : Prop where
  line : line = m.head ++ (m.value ++ m.rest)
  head : IsHead m.field m.head
  begins : Begins (m.value ++ m.rest)
  ends : Ends m.value
  rest : ∃ w w', Blank w ∧ Blank w' ∧ m.rest = w ++ ['}', ','] ++ w'

theorem matchDefault_eq_some {line : List Char} {m : DefaultMatch}
    : matchDefault line = some m ↔ IsDefault m line := by
  unfold matchDefault
  simp only [Option.bind_eq_bind, Option.bind_eq_some_iff]
  constructor
  . rintro ⟨⟨field, tail⟩, hhead, hresult⟩
    obtain ⟨hbegins, head, hfield, rfl⟩ := skipHead_eq_some.mp hhead
    simp only at hresult
    split at hresult
    next hsuffix =>
      cases hresult
      obtain ⟨closed, hclosed⟩ := List.isSuffixOf_iff_suffix.mp hsuffix
      obtain ⟨w', hw', htail⟩ := rstrip_split tail
      have htake : (rstrip tail).take ((rstrip tail).length - 2) = closed := by
        rw [← hclosed]
        simp
      rw [htake]
      obtain ⟨w, hw, hvalue⟩ := rstrip_split closed
      have htail : tail = rstrip closed ++ (w ++ ['}', ','] ++ w') := by
        nth_rewrite 1 [htail, ← hclosed, hvalue]
        simp only [List.append_assoc]
      have hrest : tail.drop (rstrip closed).length = w ++ ['}', ','] ++ w' := by
        nth_rewrite 1 [htail]
        rw [List.drop_left]
      have htakeHead : (head ++ tail).take ((head ++ tail).length - tail.length) = head := by
        simp
      refine ⟨?_, ?_, ?_, ends_rstrip closed, w, w', hw, hw', hrest⟩
      . simp only [htakeHead, hrest]
        rw [← htail]
      . simpa only [htakeHead] using hfield
      . simp only [hrest]
        rwa [← htail]
    next => cases hresult
  . rintro ⟨rfl, hhead, hbegins, hends, w, w', hw, hw', hrest⟩
    refine ⟨(m.field, m.value ++ m.rest), skipHead_eq_some.mpr ⟨hbegins, m.head, hhead, rfl⟩, ?_⟩
    have hclosed : rstrip (m.value ++ m.rest) = m.value ++ w ++ ['}', ','] := by
      rw [hrest, ← List.append_assoc, rstrip_blank hw', ← List.append_assoc, rstrip_ends]
      exact Ends.append (ends_of_last (by decide)) (by decide) _
    have htake : (m.value ++ w ++ ['}', ',']).take ((m.value ++ w ++ ['}', ',']).length - 2)
        = m.value ++ w := by
      apply List.take_left'
      simp only [List.length_append]
      rfl
    simp only [hclosed, htake, rstrip_blank hw, rstrip_ends hends, List.drop_left]
    rw [if_pos (List.isSuffixOf_iff_suffix.mpr (List.suffix_append _ _))]
    simp

/-! ### Lines whose default is replaced -/

/-- The line with another value in its default. -/
def DefaultMatch.withValue (m : DefaultMatch) (value : List Char) : List Char :=
  m.head ++ (value ++ m.rest)

/-- A value that stands alone between blanks. -/
structure Solid (value : List Char) : Prop where
  ne_nil : value ≠ []
  begins : Begins value
  ends : Ends value
  plain : Plain value

theorem IsDefault.withValue {m : DefaultMatch} {line value : List Char} (h : IsDefault m line)
    (hvalue : Solid value) : IsDefault { m with value := value } (m.withValue value) where
  line := rfl
  head := h.head
  begins := hvalue.begins.append hvalue.ne_nil _
  ends := hvalue.ends
  rest := h.rest

/-- The two lines are equal up to the value of a default. -/
inductive SameButValue : List Char → List Char → Prop
  | refl (line : List Char) : SameButValue line line
  | edit {m : DefaultMatch} {line value : List Char} : matchDefault line = some m → Solid value →
      SameButValue line (m.withValue value)

namespace SameButValue

variable {line line' : List Char}

theorem matchDefault_none (h : SameButValue line line') (hnone : matchDefault line = none)
    : line' = line := by
  cases h with
  | refl => rfl
  | edit hm =>
    rw [hnone] at hm
    cases hm

theorem matchDefault_some {m : DefaultMatch} (h : SameButValue line line')
    (hm : matchDefault line = some m)
    : ∃ value, matchDefault line' = some { m with value := value } ∧ line' = m.withValue value := by
  cases h with
  | refl =>
    have hline := (matchDefault_eq_some.mp hm).line
    exact ⟨m.value, hm, hline⟩
  | edit hm' hsolid =>
    cases hm.symm.trans hm'
    exact ⟨_, matchDefault_eq_some.mpr ((matchDefault_eq_some.mp hm).withValue hsolid), rfl⟩

end SameButValue

/-- A line with a default has no other mark. -/
theorem skip_default {m : DefaultMatch} {line p : List Char} (hm : matchDefault line = some m)
    (hlength : 2 ≤ p.length) (hp : p.take 2 ≠ ".d".toList) : skipLit p (rstripEnd line) = none ∧ skipLit p line = none := by
  have hdefault := matchDefault_eq_some.mp hm
  obtain ⟨w₀, w₁, w₂, w₃, w₄, w₅, hw, hhead⟩ := hdefault.head.split
  obtain ⟨s, hs⟩ : ∃ s, line = w₀ ++ (".def".toList ++ s) := by
    rw [hdefault.line, hhead, List.append_assoc, List.append_assoc]
    exact ⟨_, rfl⟩
  have hdef : Begins ".def".toList := begins_of_head (by decide)
  have hskip : skipLit ".def".toList line = some s :=
    (skipLit_eq_some hdef (by decide)).mpr ⟨w₀, hw.1, hs⟩
  have hskip' : skipLit ".def".toList (rstripEnd line) = some (rstripEnd s) := by
    refine (skipLit_eq_some hdef (by decide)).mpr ⟨w₀, hw.1, ?_⟩
    rw [hs, ← List.append_assoc, rstripEnd, rdropWhile_append (by simp), List.append_assoc]
    . rfl
    . simp
  have hne (r : List Char) (line' s' : List Char) (h : skipLit ".def".toList line' = some s')
      : skipLit p line' ≠ some r := by
    intro h'
    rw [skipLit, dropLit_eq_some] at h h'
    have htake := congrArg (List.take 2) (h.symm.trans h')
    rw [List.take_append_of_le_length hlength, List.take_append_of_le_length (by decide)] at htake
    exact hp htake.symm
  exact ⟨Option.eq_none_iff_forall_ne_some.mpr fun r => hne r _ _ hskip',
    Option.eq_none_iff_forall_ne_some.mpr fun r => hne r _ _ hskip⟩

theorem marks_of_default {m : DefaultMatch} {line : List Char} (hm : matchDefault line = some m)
    : objectIndex line = none ∧ subIndex line = none ∧ typeName (rstripEnd line) = none := by
  refine ⟨?_, ?_, ?_⟩
  . rw [objectIndex, matchHexField, (skip_default hm (by decide) (by decide)).1]
    rfl
  . rw [subIndex, matchHexField, (skip_default hm (by decide) (by decide)).1]
    rfl
  . rw [typeName, (skip_default hm (by decide) (by decide)).1]
    rfl

/-- Lines that are equal up to the value of a default have the same marks. -/
theorem SameButValue.marks {line line' : List Char} (h : SameButValue line line')
    : objectIndex line' = objectIndex line ∧ subIndex line' = subIndex line
      ∧ typeName (rstripEnd line') = typeName (rstripEnd line) := by
  cases hm : matchDefault line with
  | none =>
    rw [h.matchDefault_none hm]
    exact ⟨rfl, rfl, rfl⟩
  | some m =>
    obtain ⟨value, hm', _⟩ := h.matchDefault_some hm
    obtain ⟨hobject, hsub, htype⟩ := marks_of_default hm
    obtain ⟨hobject', hsub', htype'⟩ := marks_of_default hm'
    rw [hobject, hobject', hsub, hsub', htype, htype']
    exact ⟨rfl, rfl, rfl⟩

end LelyRtt.Sdev
