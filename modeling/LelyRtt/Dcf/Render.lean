import LelyRtt.Dcf.Parse
import LelyRtt.Text.Literal
import Mathlib.Data.List.ModifyLast

/-!
This module contains `render_source` of `tools/gen_cfg_dcf.py`, the proof that the array literal in its
text is the concise DCF the entries were read from, and the agreement of the host tools with the target.
-/

namespace LelyRtt.Dcf

open LelyRtt.Text

/-- `struct.pack` of one unsigned field; out of range it raises an error. -/
def pack (size value : Nat) : Option (List UInt8) :=
  if value < 256 ^ size then some (leBytes size value) else none

/-- `f"{value:0{width}x}"` -/
def hexField (width value : Nat) : String :=
  String.ofList ((Nat.toDigits 16 value).leftpad width '0')

/-- `_format_bytes` with its default indentation -/
def formatBytes (data : List UInt8) : List String :=
  if data = [] then
    ["    /* empty value */"]
  else
    (List.range ((data.length + 11) / 12)).map fun i =>
      let chunk := slice data (12 * i) (12 * i + 12)
      "    " ++ ", ".intercalate (chunk.map fun byte => "0x" ++ hexField 2 byte.toNat) ++ ","

/-- The lines `render_source` writes for one entry. -/
def entryLines (entryNo : Nat) (entry : ConciseEntry) : Option (List String) := do
  let comment := "    /* Entry " ++ toString entryNo ++ ": 0x" ++ hexField 4 entry.index ++ ":"
    ++ hexField 2 entry.subIndex ++ ", " ++ toString entry.value.length ++ " byte(s). */"
  let index ← pack 2 entry.index
  let subIndex ← pack 1 entry.subIndex
  let size ← pack 4 entry.value.length
  return comment :: (formatBytes (index ++ subIndex ++ size) ++ formatBytes entry.value)

/-- The loop of `render_source` over the entries. -/
def entriesLines (entryNo : Nat) : List ConciseEntry → Option (List String)
  | [] => some []
  | entry :: entries => do
    let lines ← entryLines entryNo entry
    let rest ← entriesLines (entryNo + 1) entries
    return lines ++ rest

/-- The lines before the array; `licence` is the text of the second one. -/
def bannerLines (licence basename sourceLabel : String) : List String :=
  [ "/*",
    " * " ++ licence,
    " *",
    " * Generated by tools/gen_cfg_dcf.py. Do not edit manually.",
    " */",
    "",
    "/**",
    " * @file " ++ basename ++ ".c",
    " * @brief Embedded application concise DCF generated on the Host.",
    " */",
    "",
    "#include \"" ++ basename ++ ".h\"",
    "",
    "/* Configuration source: " ++ sourceLabel ++ ". */" ]

/-- `render_source` -/
def renderSource (licence basename symbol : String) (entries : List ConciseEntry) (sourceLabel : String)
    : Option String := do
  let lines := bannerLines licence basename sourceLabel ++ ["const rt_uint8_t " ++ symbol ++ "[] = \x7b"]
  let lines := lines ++ formatBytes (← pack 4 entries.length)
  let lines := lines.modifyLast
    (· ++ (" /* Entry count = " ++ toString entries.length ++ ". */"))
  let lines := lines ++ (← entriesLines 1 entries)
  let lines := lines
    ++ ["\x7d;", "", "const rt_size_t " ++ symbol ++ "_size = sizeof(" ++ symbol ++ ");", ""]
  return "\n".intercalate lines

/-- `text.replace("\r\n", "\n")` -/
def replaceCrlf : List Char → List Char
  | [] => []
  | '\r' :: '\n' :: rest => '\n' :: replaceCrlf rest
  | c :: rest => c :: replaceCrlf rest

/-- `text.replace("\n", "\r\n")` -/
def replaceLf : List Char → List Char
  | [] => []
  | '\n' :: rest => '\r' :: '\n' :: replaceLf rest
  | c :: rest => c :: replaceLf rest

/--
`_crlf_ascii` of a text that `.encode("ascii")` takes: with a label that has other characters the tool
fails there and writes nothing.
-/
def crlf (text : String) : List Char :=
  replaceLf (replaceCrlf text.toList)

/-- `C_IDENTIFIER_RE.fullmatch`, which `main` requires of the basename and the symbol -/
def isIdentifier (name : String) : Bool :=
  match name.toList with
  | [] => false
  | c :: rest => (c.isAlpha || c == '_') && rest.all (fun c => c.isAlphanum || c == '_')

/-- Neither comment ends nor line breaks, which `main` requires of a label -/
def IsLabel (label : String) : Prop :=
  ¬ ['*', '/'] <:+: label.toList ∧ '\n' ∉ label.toList ∧ '\r' ∉ label.toList

instance (label : String) : Decidable (IsLabel label) :=
  inferInstanceAs (Decidable (_ ∧ _ ∧ _))

/-! ### Lines -/

/-- The text has no line break. -/
def Clean (text : List Char) : Prop :=
  '\n' ∉ text ∧ '\r' ∉ text

instance (text : List Char) : Decidable (Clean text) :=
  inferInstanceAs (Decidable (_ ∧ _))

theorem Clean.append {text text' : List Char} (h : Clean text) (h' : Clean text')
    : Clean (text ++ text') := by
  simp only [Clean, List.mem_append, not_or]
  exact ⟨⟨h.1, h'.1⟩, h.2, h'.2⟩

/-- A line in the file. -/
def fileLine (line : String) : List Char :=
  line.toList ++ ['\r', '\n']

theorem replaceCrlf_eq {text : List Char} (h : '\r' ∉ text) : replaceCrlf text = text := by
  fun_induction replaceCrlf text with
  | case1 => rfl
  | case2 => exact absurd List.mem_cons_self h
  | case3 c rest hne ih => rw [ih (fun hmem => h (List.mem_cons_of_mem c hmem))]

theorem replaceLf_append {line : List Char} (h : '\n' ∉ line) (rest : List Char)
    : replaceLf (line ++ rest) = line ++ replaceLf rest := by
  induction line with
  | nil => rfl
  | cons c line ih =>
    have hc : c ≠ '\n' := fun heq => h (heq ▸ List.mem_cons_self)
    rw [List.cons_append, replaceLf, ih (fun hmem => h (List.mem_cons_of_mem c hmem)),
      List.cons_append]
    exact fun heq => hc heq

theorem toList_intercalate_concat (lines : List String)
    : ("\n".intercalate (lines ++ [""])).toList = lines.flatMap (fun line => line.toList ++ ['\n']) := by
  rw [String.toList_intercalate]
  induction lines with
  | nil => rfl
  | cons line lines ih =>
    cases lines with
    | nil => simp [List.intercalate]
    | cons line' lines =>
      simp only [List.cons_append, List.map_cons, List.flatMap_cons] at ih ⊢
      rw [List.intercalate_cons_cons, ih]
      simp

/-- The file holds the lines in order. -/
theorem crlf_intercalate {lines : List String} (h : ∀ line ∈ lines, Clean line.toList)
    : crlf ("\n".intercalate (lines ++ [""])) = lines.flatMap fileLine := by
  have hcr : '\r' ∉ lines.flatMap (fun line => line.toList ++ ['\n']) := by
    intro hmem
    obtain ⟨line, hline, hmem⟩ := List.mem_flatMap.mp hmem
    have hclean := (h line hline).2
    simp [hclean] at hmem
  rw [crlf, toList_intercalate_concat, replaceCrlf_eq hcr]
  clear hcr
  induction lines with
  | nil => rfl
  | cons line lines ih =>
    have hline := (h line List.mem_cons_self).1
    have hrest := ih (fun line' hmem => h line' (List.mem_cons_of_mem line hmem))
    rw [List.flatMap_cons, List.flatMap_cons, List.append_assoc, replaceLf_append hline,
      List.singleton_append, replaceLf, hrest, fileLine, List.append_assoc]
    rfl

/-! ### Words -/

/-- The text consists of letters, digits and underscores. -/
def Word (text : List Char) : Prop :=
  ∀ c ∈ text, (c.isAlphanum || c == '_') = true

theorem Word.not_mem {text : List Char} (h : Word text) {c : Char}
    (hc : (c.isAlphanum || c == '_') = false) : c ∉ text := by
  intro hmem
  rw [h c hmem] at hc
  cases hc

theorem Word.clean {text : List Char} (h : Word text) : Clean text :=
  ⟨h.not_mem (by decide), h.not_mem (by decide)⟩

theorem Word.inComment {text : List Char} (h : Word text) : inComment text = true :=
  inComment_of_not_mem (h.not_mem (by decide))

theorem word_of_isIdentifier {name : String} (h : isIdentifier name = true) : Word name.toList := by
  intro c hc
  unfold isIdentifier at h
  split at h
  next => cases h
  next c' rest htext =>
    rw [htext] at hc
    simp only [Bool.and_eq_true, List.all_eq_true] at h
    cases List.mem_cons.mp hc with
    | inl heq =>
      subst heq
      have hfirst := h.1
      simp only [Bool.or_eq_true] at hfirst ⊢
      exact hfirst.imp (fun halpha => by simp [Char.isAlphanum, halpha]) id
    | inr hmem => exact h.2 c hmem

theorem word_toDigits {base : Nat} (hbase : 1 < base) (hle : base ≤ 16) (n : Nat)
    : Word (Nat.toDigits base n) := by
  have hdigit : ∀ d : Fin 16, (d.1.digitChar.isAlphanum || d.1.digitChar == '_') = true := by decide
  induction n using Nat.strongRecOn with
  | ind n ih =>
    by_cases hn : n < base
    case pos =>
      rw [Nat.toDigits_of_lt_base hn]
      intro c hc
      rw [List.mem_singleton.mp hc]
      exact hdigit ⟨n, by omega⟩
    case neg =>
      rw [Nat.toDigits_of_base_le hbase (by omega)]
      have hmod := Nat.mod_lt n (show 0 < base by omega)
      intro c hc
      cases List.mem_append.mp hc with
      | inl hmem => exact ih (n / base) (Nat.div_lt_self (by omega) hbase) c hmem
      | inr hmem =>
        rw [List.mem_singleton.mp hmem]
        exact hdigit ⟨n % base, by omega⟩

theorem word_toString (n : Nat) : Word (toString n).toList := by
  have hrepr : (toString n).toList = Nat.toDigits 10 n := Nat.toList_repr
  rw [hrepr]
  exact word_toDigits (by decide) (by decide) n

theorem word_hexField (width value : Nat) : Word (hexField width value).toList := by
  intro c hc
  rw [hexField, String.toList_ofList, List.leftpad] at hc
  cases List.mem_append.mp hc with
  | inl hmem =>
    rw [List.eq_of_mem_replicate hmem]
    decide
  | inr hmem => exact word_toDigits (by decide) (by decide) value c hmem

/-! ### Bytes -/

/-- In the braces of the array, the line stands for `bytes`. -/
def IsLine (line : String) (bytes : List UInt8) : Prop :=
  Clean line.toList ∧ Writes line.toList bytes

theorem chunks_flatMap (data : List UInt8) (n : Nat)
    : (List.range n).flatMap (fun i => slice data (12 * i) (12 * i + 12)) = slice data 0 (12 * n) := by
  induction n with
  | zero => simp [slice]
  | succ n ih =>
    rw [List.range_succ, List.flatMap_append, ih]
    simp only [List.flatMap_cons, List.flatMap_nil, List.append_nil]
    rw [slice_append (by omega) (by omega)]
    rfl

/-- In the braces of the array, the lines stand for `bytes`. -/
def IsBlock (lines : List String) (bytes : List UInt8) : Prop :=
  (∀ line ∈ lines, Clean line.toList) ∧ Writes (lines.flatMap fileLine) bytes

theorem IsLine.block {line : String} {bytes : List UInt8} (h : IsLine line bytes)
    : IsBlock [line] bytes := by
  constructor
  . intro line' hmem
    rw [List.mem_singleton.mp hmem]
    exact h.1
  . have hend : Writes ['\r', '\n'] [] := writes_blanks (by decide)
    simpa [fileLine] using h.2.append hend

theorem IsBlock.append {lines lines' : List String} {bytes bytes' : List UInt8}
    (h : IsBlock lines bytes) (h' : IsBlock lines' bytes')
    : IsBlock (lines ++ lines') (bytes ++ bytes') := by
  constructor
  . intro line hmem
    exact (List.mem_append.mp hmem).elim (h.1 line) (h'.1 line)
  . rw [List.flatMap_append]
    exact h.2.append h'.2

theorem isBlock_nil : IsBlock [] [] :=
  ⟨by simp, writes_nil⟩

theorem isBlock_map {α : Type} {xs : List α} {line : α → String} {bytes : α → List UInt8}
    (h : ∀ x ∈ xs, IsLine (line x) (bytes x)) : IsBlock (xs.map line) (xs.flatMap bytes) := by
  induction xs with
  | nil => exact isBlock_nil
  | cons x xs ih =>
    have hfirst := (h x List.mem_cons_self).block
    have hrest := ih (fun x' hmem => h x' (List.mem_cons_of_mem x hmem))
    simpa using hfirst.append hrest

/-- A comment on a line of its own. -/
theorem isLine_comment (text : List Char) (hclean : Clean text) (h : inComment text = true)
    {line : String} (hline : line.toList = "    /*".toList ++ text ++ "*/".toList)
    : IsLine line [] := by
  have hindent : Writes "    ".toList [] := writes_blanks (by decide)
  constructor
  . rw [hline]
    exact ((show Clean "    /*".toList by decide).append hclean).append (by decide)
  . rw [hline, show "    /*".toList ++ text ++ "*/".toList
      = "    ".toList ++ (['/', '*'] ++ text ++ ['*', '/']) by simp]
    exact hindent.append (writes_comment h)

theorem writes_chunk {chunk : List UInt8} (h : chunk ≠ [])
    : Writes ((", ".intercalate (chunk.map fun byte => "0x" ++ hexField 2 byte.toNat)).toList ++ [','])
      chunk := by
  rw [String.toList_intercalate]
  induction chunk with
  | nil => exact absurd rfl h
  | cons byte chunk ih =>
    have hbyte := writes_byte byte
    cases chunk with
    | nil => simpa [hexField] using hbyte
    | cons byte' chunk =>
      have hrest := ih (by simp)
      have hblank : Writes [' '] [] := writes_blanks (by decide)
      rw [List.map_cons, List.map_cons, List.map_cons, List.map_cons, List.intercalate_cons_cons]
      rw [List.map_cons, List.map_cons] at hrest
      simpa [hexField] using (hbyte.append hblank).append hrest

theorem clean_chunk (chunk : List UInt8)
    : Clean (", ".intercalate (chunk.map fun byte => "0x" ++ hexField 2 byte.toNat)).toList := by
  have hbyte (byte : UInt8) : Clean ("0x" ++ hexField 2 byte.toNat).toList := by
    rw [String.toList_append]
    exact (show Clean "0x".toList by decide).append (word_hexField 2 byte.toNat).clean
  rw [String.toList_intercalate]
  induction chunk with
  | nil => decide
  | cons byte chunk ih =>
    cases chunk with
    | nil => simpa using hbyte byte
    | cons byte' chunk =>
      rw [List.map_cons, List.map_cons, List.map_cons, List.map_cons, List.intercalate_cons_cons]
      rw [List.map_cons, List.map_cons] at ih
      exact ((hbyte byte).append (by decide)).append ih

theorem isLine_chunk {chunk : List UInt8} (h : chunk ≠ [])
    : IsLine ("    " ++ ", ".intercalate (chunk.map fun byte => "0x" ++ hexField 2 byte.toNat) ++ ",")
      chunk := by
  have hindent : Writes "    ".toList [] := writes_blanks (by decide)
  simp only [IsLine, String.toList_append]
  constructor
  . exact ((show Clean "    ".toList by decide).append (clean_chunk chunk)).append (by decide)
  . rw [List.append_assoc]
    exact hindent.append (writes_chunk h)

theorem isBlock_formatBytes (data : List UInt8) : IsBlock (formatBytes data) data := by
  unfold formatBytes
  split
  next hnil =>
    rw [hnil]
    exact (isLine_comment " empty value ".toList (by decide) (by decide) rfl).block
  next hne =>
    have hall : slice data 0 (12 * ((data.length + 11) / 12)) = data :=
      List.take_of_length_le (by simp only [List.drop_zero]; omega)
    have hchunk (i : Nat) (hi : i ∈ List.range ((data.length + 11) / 12))
        : slice data (12 * i) (12 * i + 12) ≠ [] := by
      have hlt := List.mem_range.mp hi
      intro hnil
      have hlength := congrArg List.length hnil
      simp only [slice, List.length_take, List.length_drop, List.length_nil] at hlength
      omega
    have hblock := isBlock_map (fun i hi => isLine_chunk (hchunk i hi))
    rwa [chunks_flatMap, hall] at hblock

/-! ### The array -/

theorem pack_of_lt {size value : Nat} (h : value < 256 ^ size) : pack size value = some (leBytes size value) :=
  if_pos h

theorem isBlock_entryLines {entry : ConciseEntry} (h : entry.Fits) (entryNo : Nat)
    : ∃ lines, entryLines entryNo entry = some lines ∧ IsBlock lines entry.encode := by
  obtain ⟨hindex, hsubIndex, hsize⟩ := h
  have hword := word_toString
  have hcomment : IsLine ("    /* Entry " ++ toString entryNo ++ ": 0x" ++ hexField 4 entry.index ++ ":"
      ++ hexField 2 entry.subIndex ++ ", " ++ toString entry.value.length ++ " byte(s). */") [] := by
    refine isLine_comment (" Entry ".toList ++ ((toString entryNo).toList ++ (": 0x".toList
      ++ ((hexField 4 entry.index).toList ++ (":".toList ++ ((hexField 2 entry.subIndex).toList
        ++ (", ".toList ++ ((toString entry.value.length).toList ++ " byte(s). ".toList))))))))
      ?_ ?_ ?_
    . refine Clean.append (by decide) ((hword _).clean.append (Clean.append (by decide)
        ((word_hexField _ _).clean.append (Clean.append (by decide) ((word_hexField _ _).clean.append
          (Clean.append (by decide) ((hword _).clean.append (by decide))))))))
    . refine inComment_append (by decide) (inComment_append (hword _).inComment
        (inComment_append (by decide) (inComment_append (word_hexField _ _).inComment
          (inComment_append (by decide) (inComment_append (word_hexField _ _).inComment
            (inComment_append (by decide) (inComment_append (hword _).inComment (by decide))))))))
    . simp [String.toList_append]
  have hbytes := (isBlock_formatBytes (leBytes 2 entry.index ++ leBytes 1 entry.subIndex
    ++ leBytes 4 entry.value.length)).append (isBlock_formatBytes entry.value)
  refine ⟨_, ?_, hcomment.block.append hbytes⟩
  rw [entryLines, pack_of_lt hindex, pack_of_lt hsubIndex, pack_of_lt hsize]
  rfl

theorem isBlock_entriesLines {entries : List ConciseEntry} (h : ∀ entry ∈ entries, entry.Fits)
    (entryNo : Nat)
    : ∃ lines, entriesLines entryNo entries = some lines
      ∧ IsBlock lines (entries.flatMap (·.encode)) := by
  induction entries generalizing entryNo with
  | nil => exact ⟨[], rfl, isBlock_nil⟩
  | cons entry entries ih =>
    obtain ⟨lines, hlines, hblock⟩ := isBlock_entryLines (h entry List.mem_cons_self) entryNo
    obtain ⟨rest, hrest, hblock'⟩ :=
      ih (fun entry' hmem => h entry' (List.mem_cons_of_mem entry hmem)) (entryNo + 1)
    refine ⟨lines ++ rest, ?_, ?_⟩
    . rw [entriesLines, hlines, hrest]
      rfl
    . rw [List.flatMap_cons]
      exact hblock.append hblock'

/-- The line of the count is the only one its bytes take. -/
theorem formatBytes_of_length {data : List UInt8} (hpos : 0 < data.length) (h : data.length ≤ 12)
    : formatBytes data
      = ["    " ++ ", ".intercalate (data.map fun byte => "0x" ++ hexField 2 byte.toNat) ++ ","] := by
  have hne : data ≠ [] := List.ne_nil_of_length_pos hpos
  have hone : (data.length + 11) / 12 = 1 := by omega
  have hall : slice data (12 * 0) (12 * 0 + 12) = data := List.take_of_length_le (by simpa using h)
  rw [formatBytes, if_neg hne, hone]
  simp only [List.range_one, List.map_cons, List.map_nil, hall]

/-- The line of the count. -/
def countLine (n : Nat) : String :=
  "    " ++ ", ".intercalate ((leBytes 4 n).map fun byte => "0x" ++ hexField 2 byte.toNat) ++ ","
    ++ (" /* Entry count = " ++ toString n ++ ". */")

theorem isLine_count (n : Nat) : IsLine (countLine n) (leBytes 4 n) := by
  have hne : leBytes 4 n ≠ [] := List.ne_nil_of_length_pos (by rw [length_leBytes]; decide)
  obtain ⟨hclean, hwrites⟩ := isLine_chunk hne
  have hcomment : inComment (" Entry count = ".toList ++ (toString n).toList ++ ". ".toList) = true :=
    inComment_append (inComment_append (by decide) (word_toString n).inComment) (by decide)
  have hblank : Writes [' '] [] := writes_blanks (by decide)
  constructor
  . rw [countLine, String.toList_append]
    refine hclean.append ?_
    simp only [String.toList_append]
    exact (Clean.append (by decide) (word_toString n).clean).append (by decide)
  . rw [countLine, String.toList_append]
    have hall := hwrites.append (hblank.append (writes_comment hcomment))
    simpa [String.toList_append] using hall

/-! ### The text before the array -/

theorem IsLabel.clean {label : String} (h : IsLabel label) : Clean label.toList :=
  ⟨h.2.1, h.2.2⟩

set_option maxRecDepth 2000 in
/-- The comments that open the file and the line that includes the header. -/
theorem strips_banner {licence basename label : String} (hlicence : IsLabel licence)
    (hbasename : Word basename.toList) (hlabel : IsLabel label)
    : ∃ out, Strips false ((bannerLines licence basename label).flatMap fileLine) false out
      ∧ '{' ∉ out := by
  have hfirst : inComment ("\r\n * ".toList ++ ((licence.toList ++ ['\r'])
      ++ "\n *\r\n * Generated by tools/gen_cfg_dcf.py. Do not edit manually.\r\n ".toList)) = true :=
    inComment_append (by decide) (inComment_append
      (inComment_append_singleton hlicence.1 (by decide) (by decide)) (by decide))
  have hsecond : inComment ("*\r\n * @file ".toList ++ (basename.toList
      ++ (".c\r\n * @brief Embedded application concise DCF generated on the Host.\r\n ").toList))
      = true :=
    inComment_append (by decide) (inComment_append hbasename.inComment (by decide))
  have hthird : inComment (" Configuration source: ".toList ++ ((label.toList ++ ['.']) ++ [' ']))
      = true :=
    inComment_append (by decide) (inComment_append
      (inComment_append_singleton hlabel.1 (by decide) (by decide)) (by decide))
  have hcomment {text : List Char} (h : inComment text = true)
      : Strips false (['/', '*'] ++ text ++ ['*', '/']) false [' '] :=
    (strips_open.append (strips_inComment h)).append strips_close
  have hinclude : Strips false ("\r\n\r\n#include \"".toList ++ basename.toList
      ++ ".h\"\r\n\r\n".toList) false _ :=
    strips_code (by simp [hbasename.not_mem])
  have hbreak : Strips false "\r\n\r\n".toList false _ := strips_code (by decide)
  have hend : Strips false "\r\n".toList false _ := strips_code (by decide)
  have hall := ((((hcomment hfirst).append hbreak).append (hcomment hsecond)).append hinclude).append
    ((hcomment hthird).append hend)
  obtain ⟨text, htext, hstrips⟩ : ∃ text, text = (bannerLines licence basename label).flatMap fileLine
      ∧ Strips false text false _ :=
    ⟨_, by simp [bannerLines, fileLine, String.toList_append], hall⟩
  rw [← htext]
  exact ⟨_, hstrips, by simp [hbasename.not_mem]⟩

theorem clean_banner {licence basename label : String} (hlicence : IsLabel licence)
    (hbasename : Word basename.toList) (hlabel : IsLabel label)
    : ∀ line ∈ bannerLines licence basename label, Clean line.toList := by
  have hfirst : Clean (" * " ++ licence).toList := by
    rw [String.toList_append]
    exact Clean.append (by decide) hlicence.clean
  have hfile : Clean (" * @file " ++ basename ++ ".c").toList := by
    simp only [String.toList_append]
    exact (Clean.append (by decide) hbasename.clean).append (by decide)
  have hinclude : Clean ("#include \"" ++ basename ++ ".h\"").toList := by
    simp only [String.toList_append]
    exact (Clean.append (by decide) hbasename.clean).append (by decide)
  have hsource : Clean ("/* Configuration source: " ++ label ++ ". */").toList := by
    simp only [String.toList_append]
    exact (Clean.append (by decide) hlabel.clean).append (by decide)
  simp only [bannerLines, List.mem_cons, List.not_mem_nil, or_false, forall_eq_or_imp, forall_eq]
  refine ⟨by decide, hfirst, by decide, by decide, by decide, by decide, by decide, hfile, by decide,
    by decide, by decide, hinclude, by decide, hsource⟩

/-- The line that ends with the opening brace. -/
def openLine (symbol : String) : String :=
  "const rt_uint8_t " ++ symbol ++ "[] = \x7b"

/-- The line behind the array. -/
def sizeLine (symbol : String) : String :=
  "const rt_size_t " ++ symbol ++ "_size = sizeof(" ++ symbol ++ ");"

theorem renderSource_eq {licence basename symbol label : String} {entries : List ConciseEntry}
    {lines : List String} (hcount : entries.length < 2 ^ 32)
    (hlines : entriesLines 1 entries = some lines)
    : renderSource licence basename symbol entries label
      = some ("\n".intercalate ((bannerLines licence basename label ++ [openLine symbol]
        ++ (countLine entries.length :: lines) ++ ["\x7d;", "", sizeLine symbol]) ++ [""])) := by
  have hformat : formatBytes (leBytes 4 entries.length) = [_] :=
    formatBytes_of_length (by rw [length_leBytes]; decide) (by rw [length_leBytes]; decide)
  unfold renderSource countLine openLine sizeLine
  rw [pack_of_lt hcount, hlines]
  simp only [Option.bind_eq_bind, Option.bind_some, hformat, List.modifyLast_concat]
  simp only [Option.pure_def, List.append_assoc, List.cons_append, List.nil_append]

theorem clean_openLine {symbol : String} (h : Word symbol.toList) : Clean (openLine symbol).toList := by
  unfold openLine
  rw [String.toList_append, String.toList_append]
  exact (Clean.append (by decide) h.clean).append (by decide)

theorem clean_sizeLine {symbol : String} (h : Word symbol.toList) : Clean (sizeLine symbol).toList := by
  unfold sizeLine
  rw [String.toList_append, String.toList_append, String.toList_append, String.toList_append]
  exact (((Clean.append (by decide) h.clean).append (by decide)).append h.clean).append (by decide)

theorem fileLine_openLine (symbol : String)
    : fileLine (openLine symbol)
      = ("const rt_uint8_t ".toList ++ symbol.toList ++ "[] = ".toList) ++ '{' :: ['\r', '\n'] := by
  have hlast : "[] = \x7b".toList = "[] = ".toList ++ ['{'] := by decide
  unfold fileLine openLine
  rw [String.toList_append, String.toList_append, hlast, ← List.append_assoc,
    List.append_assoc _ ['{']]
  rfl

/-- The array literal in the rendered text is the concise DCF of the entries. -/
theorem arrayLiteral_renderSource {licence basename symbol label : String} {entries : List ConciseEntry}
    (hlicence : IsLabel licence) (hbasename : isIdentifier basename = true)
    (hsymbol : isIdentifier symbol = true) (hlabel : IsLabel label)
    (hcount : entries.length < 2 ^ 32) (hfits : ∀ entry ∈ entries, entry.Fits)
    : ∃ text, renderSource licence basename symbol entries label = some text
      ∧ arrayLiteral (crlf text) = some (encodeDcf entries) := by
  have hbasename := word_of_isIdentifier hbasename
  have hsymbol := word_of_isIdentifier hsymbol
  obtain ⟨lines, hlines, hentries⟩ := isBlock_entriesLines hfits 1
  have hblock := (isLine_count entries.length).block.append hentries
  obtain ⟨out, hstrips, hbrace⟩ := strips_banner hlicence hbasename hlabel
  have hopen : Strips false ("const rt_uint8_t ".toList ++ symbol.toList ++ "[] = ".toList) false _ :=
    strips_code (by simp [hsymbol.not_mem])
  have hcode : '{' ∉ out ++ ("const rt_uint8_t ".toList ++ symbol.toList ++ "[] = ".toList) := by
    simp [hbrace, hsymbol.not_mem]
  have hend : Writes ['\r', '\n'] [] := writes_blanks (by decide)
  refine ⟨_, renderSource_eq hcount hlines, ?_⟩
  rw [crlf_intercalate]
  . have hread := arrayLiteral_eq (hstrips.append hopen) hcode (hend.append hblock.2)
      (";\r\n\r\n".toList ++ fileLine (sizeLine symbol))
    rw [encodeDcf, ← List.nil_append (leBytes 4 entries.length ++ _), ← hread]
    have hclose : fileLine "\x7d;" = '}' :: ";\r\n".toList := by decide
    have hempty : fileLine "" = "\r\n".toList := by decide
    have hrest : ";\r\n".toList ++ "\r\n".toList = ";\r\n\r\n".toList := by decide
    simp only [List.flatMap_append, List.flatMap_cons, List.flatMap_nil, fileLine_openLine, hclose, hempty,
      ← hrest, List.append_assoc, List.cons_append, List.nil_append, List.append_nil]
  . intro line hline
    simp only [List.mem_append, List.mem_cons, List.not_mem_nil, or_false] at hline
    obtain ((hmem | rfl) | hmem) | rfl | rfl | rfl := hline
    . exact clean_banner hlicence hbasename hlabel line hmem
    . exact clean_openLine hsymbol
    . exact hblock.1 line (by simpa using hmem)
    . decide
    . decide
    . exact clean_sizeLine hsymbol

/--
The host tools and the target agree on every concise DCF, and the generated array is the DCF it was
generated from, if the label can be written in ASCII.
-/
theorem hosts_agree_with_target {w : Nat} (hw : 32 ≤ w) {data : List UInt8} (hdata : data.length < 2 ^ 32)
    : cfgValidateDcf w data = (parseConciseDcf data).toOption.map (·.length)
      ∧ ((compactParseConciseDcf data).toOption
        = if data = [0, 0, 0, 0] then
            some []
          else
            (parseConciseDcf data).toOption.map (·.map (·.compact)))
      ∧ ∀ entries licence basename symbol label, parseConciseDcf data = .ok entries →
        IsLabel licence → isIdentifier basename = true → isIdentifier symbol = true → IsLabel label →
        ∃ text, renderSource licence basename symbol entries label = some text
          ∧ ∃ array, arrayLiteral (crlf text) = some array ∧ array = data
            ∧ parseConciseDcf array = .ok entries
            ∧ cfgValidateDcf w array = some entries.length := by
  have hlt : data.length < 2 ^ w :=
    Nat.lt_of_lt_of_le hdata (Nat.pow_le_pow_right (by decide) hw)
  have hvalidate := cfgValidateDcf_eq hw hlt
  refine ⟨hvalidate, compactParseConciseDcf_eq, ?_⟩
  intro entries licence basename symbol label hparse hlicence hbasename hsymbol hlabel
  obtain ⟨hlength, hcount, -, hencode, hfits⟩ := parseConciseDcf_ok hparse
  have hbound : entries.length < 2 ^ 32 := by
    rw [hcount]
    exact leNat_slice_four_lt data 0
  obtain ⟨text, htext, harray⟩ :=
    arrayLiteral_renderSource hlicence hbasename hsymbol hlabel hbound hfits
  rw [hencode] at harray
  refine ⟨text, htext, data, harray, rfl, hparse, ?_⟩
  rw [hvalidate, hparse]
  rfl

theorem hosts_agree_with_target_one
    : parseConciseDcf [1, 0, 0, 0, 0x17, 0x10, 0, 2, 0, 0, 0, 0xe8, 0x03]
        = .ok [⟨0x1017, 0, [0xe8, 0x03]⟩]
      ∧ ∃ text, renderSource "Licence" "cfg" "cfg_dcf" [⟨0x1017, 0, [0xe8, 0x03]⟩] "node*" = some text
        ∧ ∃ array, arrayLiteral (crlf text) = some array
          ∧ array = [1, 0, 0, 0, 0x17, 0x10, 0, 2, 0, 0, 0, 0xe8, 0x03]
          ∧ parseConciseDcf array = .ok [⟨0x1017, 0, [0xe8, 0x03]⟩]
          ∧ cfgValidateDcf 32 array = some 1 := by
  have hparse : parseConciseDcf [1, 0, 0, 0, 0x17, 0x10, 0, 2, 0, 0, 0, 0xe8, 0x03]
      = .ok [⟨0x1017, 0, [0xe8, 0x03]⟩] := by decide +kernel
  exact ⟨hparse, (hosts_agree_with_target (Nat.le_refl 32) (by decide)).2.2 _ "Licence" "cfg" "cfg_dcf"
    "node*" hparse (by decide +kernel) (by decide) (by decide) (by decide +kernel)⟩

end LelyRtt.Dcf
