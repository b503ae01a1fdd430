import LelyRtt.Dcf.Parse
import LelyRtt.Dcf.Section
import LelyRtt.Text.Dict
import LelyRtt.Text.Marks

/-!
This module contains `tools/compact_master_dcf.py`: the sections of a DCF, the writing of the entries of
`master.bin` into it, and the compaction of its objects.
-/

namespace LelyRtt.Dcf

open Text

/-- The groups of `KEY_VALUE_RE`: the first three as one text, the second without the blanks around it,
the value, and the line end. The blanks behind the equals sign belong to the third group, and so does
the line end where there is no value. -/
structure KeyValue where
  head : List Char
  key : List Char
  value : List Char
  stop : List Char
  deriving DecidableEq, Repr

/-- `(.*?)(\r?\n)?$` -/
def splitEnd (s : List Char) : List Char × List Char :=
  if ['\r', '\n'].isSuffixOf s then (s.take (s.length - 2), ['\r', '\n'])
  else if ['\n'].isSuffixOf s then (s.take (s.length - 1), ['\n'])
  else (s, [])

/-- `KEY_VALUE_RE` -/
def matchKeyValue (line : List Char) : Option KeyValue :=
  let name := line.takeWhile (· ≠ '=')
  match line.dropWhile (· ≠ '=') with
  | [] => none
  | _ :: rest =>
    if name = [] then
      none
    else
      let (value, stop) := splitEnd (lstrip rest)
      some ⟨name ++ '=' :: rest.takeWhile isSpace, strip name, value, stop⟩

structure Section where
  name : List Char
  start : Nat
  stop : Nat
  deriving DecidableEq, Repr

/-- The errors that the tool raises, apart from those of `parse_concise_dcf`. -/
inductive CompactDcfError where
  | concise (error : CompactError)
  | nodeId (nodeId : Nat)
  | cannotRewrite (line : List Char)
  | size (index subidx size : Nat)
  | missingSection (name : List Char)
  | dataType (index subidx : Nat) (actual : Option (List Char)) (name : List Char)
  | missingObject (index : Nat)
  | networkRange (index subidx maxNodeId : Nat)
  | unsupported (index subidx size : Nat)
  | noParent (name : List Char)
  | noSubNumber (index : Nat)
  | subNumber (index : Nat)
  | configRequest (actual : Option (List Char))
  | fileBacked (name key : List Char)
  | limit (subobjects limit : Nat)
  deriving DecidableEq, Repr

/-- `SECTION_RE` of a line, with the blanks around the name taken off. -/
def sectionMark (line : List Char) : Option (List Char) := sectionName (rstripEnd line)

/-- The loop of `collect_sections` over the lines from the one at `i`. -/
def sectionStarts : List (List Char) → Nat → List (List Char × Nat)
  | [], _ => []
  | line :: lines, i =>
    match sectionMark line with
    | some name => (name, i) :: sectionStarts lines (i + 1)
    | none => sectionStarts lines (i + 1)

/-- The loop of `collect_sections` over the starts. -/
def sectionEnds (length : Nat) : List (List Char × Nat) → List Section
  | [] => []
  | [(name, start)] => [⟨name, start, length⟩]
  | (name, start) :: (name', start') :: rest =>
    ⟨name, start, start'⟩ :: sectionEnds length ((name', start') :: rest)

/-- `collect_sections` -/
def collectSections (lines : List (List Char)) : List Section :=
  sectionEnds lines.length (sectionStarts lines 0)

/-- The keys and values in lines from the one at `i`. -/
def keyValues : List (List Char) → Nat → List (KeyValue × Nat)
  | [], _ => []
  | line :: lines, i =>
    match matchKeyValue line with
    | some kv => (kv, i) :: keyValues lines (i + 1)
    | none => keyValues lines (i + 1)

/-- The keys and values of a section. -/
def sectionKeyValues (lines : List (List Char)) (s : Section) : List (KeyValue × Nat) :=
  keyValues (segment lines (s.start + 1) s.stop) (s.start + 1)

/-- The values of a section with their lines. -/
abbrev Values : Type := List (List Char × (List Char × Nat))

/-- `section_values` -/
def sectionValues (cf : CaseFold) (lines : List (List Char)) (s : Section) : Values :=
  dictOf ((sectionKeyValues lines s).map fun (kv, i) => (cf.casefold kv.key, (strip kv.value, i)))

/-- A positive number as a key. -/
def numericKey (cf : CaseFold) (kv : KeyValue) : Option Nat :=
  if cf.casefold kv.key = "nrofentries".toList then
    none
  else
    match parseInt kv.key with
    | some n => if n > 0 then some n else none
    | none => none

/-- `numeric_value_keys` -/
def numericValueKeys (cf : CaseFold) (lines : List (List Char)) (s : Section) : List Nat :=
  (sectionKeyValues lines s).filterMap fun (kv, _) => numericKey cf kv

/-- The sections by their names without case. -/
def byName (cf : CaseFold) (lines : List (List Char)) : List (List Char × Section) :=
  dictOf ((collectSections lines).map fun s => (cf.casefold s.name, s))

/-- `configured_max_node_id` -/
def configuredMaxNodeId (cf : CaseFold) (text : List Char) : Except CompactDcfError Nat :=
  let lines := splitLines text
  let nodeIds := match (byName cf lines).lookup "1f81value".toList with
    | some assignment => numericValueKeys cf lines assignment
    | none => []
  let maxNodeId := nodeIds.max?.getD 1
  if maxNodeId > 127 then .error (.nodeId maxNodeId) else .ok maxNodeId

/-- `_replace_key_value`, which `replace_value` is with a number. -/
def replaceKeyValue (line newValue : List Char) : Except CompactDcfError (List Char) :=
  match matchKeyValue line with
  | none => .error (.cannotRewrite line)
  | some kv => .ok (kv.head ++ (newValue ++ kv.stop))

/-- A number in decimal. -/
def decimal (n : Nat) : List Char := Nat.toDigits 10 n

/-- `f"{value:0{width}X}"` -/
def upperHex (width value : Nat) : List Char := ((Nat.toDigits 16 value).map Char.toUpper).leftpad width '0'

/-- `_newline_for` -/
def newlineFor (text : List Char) : List Char :=
  if contains ['\r', '\n'] text then ['\r', '\n'] else ['\n']

/-- `parse_positive_int` of the value of a key. -/
def parseValue (values : Values) (key : List Char) : Option Nat :=
  (values.lookup key).bind fun (value, _) => parseInt value

/-! ### Materialization of `master.bin` -/

/-- `_format_u32` -/
def formatU32 (entry : ConciseDcfEntry) : Except CompactDcfError (List Char) :=
  if entry.data.length ≠ 4 then
    .error (.size entry.index entry.subidx entry.data.length)
  else
    .ok (['0', 'x'] ++ upperHex 8 (leNat entry.data))

/-- `_require_unsigned32_target` -/
def requireUnsigned32Target (cf : CaseFold) (text name : List Char) (index subidx : Nat)
    : Except CompactDcfError Unit :=
  let lines := splitLines text
  match (byName cf lines).lookup (cf.casefold name) with
  | none => .error (.missingSection name)
  | some s =>
    let values := sectionValues cf lines s
    if parseValue values "datatype".toList = some 0x0007 then
      .ok ()
    else
      .error (.dataType index subidx ((values.lookup "datatype".toList).map (·.1)) name)

/-- The loop of `_upsert_section_value` over the blank lines at the end of a section. -/
def insertAt (lines : List (List Char)) (start : Nat) : Nat → Nat
  | 0 => 0
  | i + 1 => if i + 1 > start + 1 ∧ strip (lines.getD i []) = [] then insertAt lines start i else i + 1

/-- `_upsert_section_value` -/
def upsertSectionValue (cf : CaseFold) (text name key value : List Char)
    : Except CompactDcfError (List Char) :=
  let lines := splitLines text
  match (byName cf lines).lookup (cf.casefold name) with
  | none => .error (.missingSection name)
  | some s =>
    match (sectionValues cf lines s).lookup (cf.casefold key) with
    | some (_, i) => do
      let line ← replaceKeyValue (lines.getD i []) value
      pure (lines.set i line).flatten
    | none =>
      let at' := insertAt lines s.start s.stop
      pure (lines.take at' ++ ((key ++ '=' :: (value ++ newlineFor text)) :: lines.drop at')).flatten

/-- `_upsert_compact_value` -/
def upsertCompactValue (cf : CaseFold) (text : List Char) (index subidx : Nat) (value : List Char)
    : Except CompactDcfError (List Char) :=
  let name := upperHex 4 index ++ "Value".toList
  let lines := splitLines text
  let newline := newlineFor text
  match (byName cf lines).lookup (cf.casefold name) with
  | none =>
    match (byName cf lines).lookup (cf.casefold (upperHex 4 index)) with
    | none => .error (.missingObject index)
    | some parent =>
      let block := ['[' :: (name ++ ']' :: newline), "NrOfEntries=1".toList ++ newline,
        decimal subidx ++ '=' :: (value ++ newline), newline]
      pure (lines.take parent.stop ++ (block ++ lines.drop parent.stop)).flatten
  | some s =>
    let items := (sectionKeyValues lines s).filterMap fun (kv, _) =>
      (numericKey cf kv).map fun n => (n, strip kv.value)
    let existing := dictSet (dictOf items) subidx value
    let keys := (existing.map (·.1)).mergeSort
    let block := ['[' :: (name ++ ']' :: newline), "NrOfEntries=".toList ++ (decimal existing.length ++ newline)]
      ++ keys.map (fun key => decimal key ++ '=' :: ((existing.lookup key).getD [] ++ newline)) ++ [newline]
    pure (lines.take s.start ++ (block ++ lines.drop s.stop)).flatten

/-- The loop of `materialize_master_bin` for one entry. -/
def materializeEntry (cf : CaseFold) (maxNodeId : Nat) (text : List Char) (entry : ConciseDcfEntry)
    : Except CompactDcfError (List Char) :=
  if entry.index = 0x1018 ∧ entry.subidx = 4 then do
    requireUnsigned32Target cf text "1018sub4".toList entry.index entry.subidx
    let value ← formatU32 entry
    upsertSectionValue cf text "1018sub4".toList "ParameterValue".toList value
  else if (entry.index = 0x1f55 ∨ entry.index = 0x1f87 ∨ entry.index = 0x1f88) ∧ 1 ≤ entry.subidx
      ∧ entry.subidx ≤ 127 then do
    requireUnsigned32Target cf text (upperHex 4 entry.index) entry.index entry.subidx
    if entry.subidx > maxNodeId then
      .error (.networkRange entry.index entry.subidx maxNodeId)
    else
      let value ← formatU32 entry
      upsertCompactValue cf text entry.index entry.subidx value
  else
    .error (.unsupported entry.index entry.subidx entry.data.length)

/-- `materialize_master_bin` behind the parsing of the file, and what it has written. -/
def materializeEntries (cf : CaseFold) (text : List Char) (entries : List ConciseDcfEntry)
    : Except CompactDcfError (List Char × List (Nat × Nat)) := do
  let maxNodeId ← configuredMaxNodeId cf text
  let text ← entries.foldlM (materializeEntry cf maxNodeId) text
  pure (text, entries.map fun entry => (entry.index, entry.subidx))

/-- `materialize_master_bin` -/
def materializeMasterBin (cf : CaseFold) (text : List Char) (masterBin : Option (List UInt8))
    : Except CompactDcfError (List Char × List (Nat × Nat)) :=
  match masterBin with
  | none => .ok (text, [])
  | some data =>
    match compactParseConciseDcf data with
    | .error error => .error (.concise error)
    | .ok entries => materializeEntries cf text entries

/-! ### Compaction -/

/-- `OBJECT_RE` -/
def isObject (name : List Char) : Bool := name.length = 4 ∧ name.all isHex

/-- A letter `s` for a regular expression without case. -/
def isLetterS (c : Char) : Bool := c = 's' ∨ c = 'S' ∨ c.toNat = 0x17f

/-- `TPDO_RESERVED_SUB4_RE` -/
def reservedSub4 (name : List Char) : Option (List Char) :=
  let object := name.take 4
  if !isObject object then
    none
  else
    match name.drop 4 with
    | s :: u :: b :: digits =>
      if isLetterS s ∧ (u = 'u' ∨ u = 'U') ∧ (b = 'b' ∨ b = 'B') ∧ (digits = ['4'] ∨ digits = ['0', '4']) then
        some object
      else
        none
    | _ => none

/-- A reserved sub-index of a communication object of a TPDO, with the name of its object. -/
def reservedObject (name : List Char) : Option (List Char) :=
  (reservedSub4 name).bind fun object =>
    let index := natOfDigits 16 object
    if index < 0x1800 ∨ index > 0x19ff then none else some object

/-- The loop of `strip_reserved_tpdo_sub4` for one section. -/
def stripSection (cf : CaseFold) (parents : List (List Char × Section))
    (state : List (List Char) × List Section) (s : Section)
    : Except CompactDcfError (List (List Char) × List Section) :=
  match reservedObject s.name with
  | none => .ok state
  | some object =>
    let index := natOfDigits 16 object
    match parents.lookup (cf.casefold object) with
    | none => .error (.noParent s.name)
    | some parent =>
      match (sectionValues cf state.1 parent).lookup "subnumber".toList with
      | none => .error (.noSubNumber index)
      | some (value, i) =>
        match parseInt value with
        | none | some 0 => .error (.subNumber index)
        | some (count + 1) => do
          let line ← replaceKeyValue (state.1.getD i []) (decimal count)
          pure (state.1.set i line, state.2 ++ [s])

/-- `del lines[start:stop]` for the lines of a section. -/
def deleteSection (lines : List (List Char)) (s : Section) : List (List Char) :=
  lines.take s.start ++ lines.drop s.stop

/-- `strip_reserved_tpdo_sub4`, with the objects that have lost a sub-index. -/
def stripReservedTpdoSub4 (cf : CaseFold) (text : List Char)
    : Except CompactDcfError (List Char × List (List Char)) := do
  let lines := splitLines text
  let (lines, removals) ← (collectSections lines).foldlM (stripSection cf (byName cf lines)) (lines, [])
  let descending := removals.mergeSort fun a b => decide (b.start ≤ a.start)
  pure ((descending.foldl deleteSection lines).flatten,
    removals.map fun s => upperHex 4 (natOfDigits 16 (s.name.take 4)))

/-- `normalize_master_object_contracts` -/
def normalizeMasterObjectContracts (cf : CaseFold) (text : List Char) : Except CompactDcfError (List Char) :=
  let lines := splitLines text
  match (byName cf lines).lookup "1f25".toList with
  | none => .ok text
  | some s =>
    match (sectionValues cf lines s).lookup "datatype".toList with
    | none => .error (.configRequest none)
    | some (value, i) =>
      if parseInt value = some 0x0007 then
        .ok text
      else if parseInt value = some 0x0005 then do
        let line ← replaceKeyValue (lines.getD i []) "0x0007".toList
        pure (lines.set i line).flatten
      else
        .error (.configRequest (some value))

/-- `validate_fileless_object_values` -/
def validateFilelessObjectValues (cf : CaseFold) (text : List Char) : Except CompactDcfError Unit :=
  let lines := splitLines text
  (collectSections lines).forM fun s =>
    ["uploadfile".toList, "downloadfile".toList].forM fun key =>
      if ((sectionValues cf lines s).lookup key).isSome then .error (.fileBacked s.name key) else .ok ()

/-- What the object of a section adds to the sub-objects of `estimate_subobjects`. -/
def estimateSection (cf : CaseFold) (lines : List (List Char)) (s : Section) : Nat :=
  let values := sectionValues cf lines s
  match parseValue values "compactsubobj".toList with
  | some count => count + 1
  | none => (parseValue values "subnumber".toList).getD 1

/-- `estimate_subobjects` -/
def estimateSubobjects (cf : CaseFold) (lines : List (List Char)) : Nat × Nat :=
  let objects := (collectSections lines).filter fun s => isObject s.name
  (objects.length, (objects.map (estimateSection cf lines)).sum)

/-- `NODE_INDEXED_OBJECTS` -/
def nodeIndexedObjects : List (List Char) :=
  ["1016".toList, "1028".toList, "1F25".toList, "1F55".toList, "1F81".toList, "1F82".toList, "1F84".toList,
    "1F85".toList, "1F86".toList, "1F87".toList, "1F88".toList, "1F8A".toList]

def upper (s : List Char) : List Char := s.map Char.toUpper

/-- `VALUE_SECTION_RE` -/
def valueSection (name : List Char) : Option (List Char) :=
  if isObject (name.take 4) ∧ (name.drop 4).map Char.toLower = "value".toList then some (name.take 4) else none

/-- `explicit_value_keys` -/
def explicitValueKeys (cf : CaseFold) (lines : List (List Char)) : List (List Char × List Nat) :=
  dictOf ((collectSections lines).filterMap fun s =>
    (valueSection s.name).map fun object => (upper object, numericValueKeys cf lines s))

/-- The new range of an object. -/
def compactTarget (depth maxNodeId : Nat) (keys : List (List Char × List Nat)) (object : List Char)
    (original : Nat) : Nat :=
  let target :=
    if object = "1003".toList then min original depth
    else if object ∈ nodeIndexedObjects then min original maxNodeId
    else
      match ((keys.lookup object).getD []).max? with
      | some key => min original key
      | none => original
  max 1 target

/-- A changed range, with the one before. -/
structure RangeChange where
  object : List Char
  original : Nat
  target : Nat
  deriving DecidableEq, Repr

/-- The second loop of `compact_dcf` for one section. -/
def compactSection (cf : CaseFold) (depth maxNodeId : Nat) (keys : List (List Char × List Nat))
    (state : List (List Char) × List RangeChange) (s : Section)
    : Except CompactDcfError (List (List Char) × List RangeChange) :=
  if !isObject s.name then
    .ok state
  else
    match (sectionValues cf state.1 s).lookup "compactsubobj".toList with
    | none => .ok state
    | some (value, i) =>
      match parseInt value with
      | none | some 0 => .ok state
      | some original =>
        let target := compactTarget depth maxNodeId keys (upper s.name) original
        if target < original then do
          let line ← replaceKeyValue (state.1.getD i []) (decimal target)
          pure (state.1.set i line, state.2 ++ [⟨upper s.name, original, target⟩])
        else
          .ok state

structure CompactResult where
  output : List Char
  changes : List RangeChange
  removedReservedTpdo : List (List Char)
  materialized : List (Nat × Nat)
  maxNodeId : Nat
  before : Nat × Nat
  after : Nat × Nat
  deriving DecidableEq, Repr

/-- The part of `compact_dcf` behind the removal of the reserved sub-indexes. -/
def compactRanges (cf : CaseFold) (depth : Nat) (text : List Char)
    : Except CompactDcfError (List Char × List RangeChange × Nat) := do
  let lines := splitLines text
  let maxNodeId ← configuredMaxNodeId cf text
  let (lines, changes) ← (collectSections lines).foldlM
    (compactSection cf depth maxNodeId (explicitValueKeys cf lines)) (lines, [])
  pure (lines.flatten, changes, maxNodeId)

/-- `compact_dcf` -/
def compactDcf (cf : CaseFold) (text : List Char) (masterBin : Option (List UInt8)) (depth limit : Nat)
    : Except CompactDcfError CompactResult := do
  let text ← normalizeMasterObjectContracts cf text
  let (text, materialized) ← materializeMasterBin cf text masterBin
  let before := estimateSubobjects cf (splitLines text)
  let (text, removed) ← stripReservedTpdoSub4 cf text
  let (output, changes, maxNodeId) ← compactRanges cf depth text
  validateFilelessObjectValues cf output
  let after := estimateSubobjects cf (splitLines output)
  if limit > 0 ∧ after.2 > limit then
    .error (.limit after.2 limit)
  else
    pure ⟨output, changes, removed, materialized, maxNodeId, before, after⟩

end LelyRtt.Dcf
