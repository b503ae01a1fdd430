import LelyRtt.Dcf.Strip
import Mathlib.Data.List.GetD

/-!
This module contains what the materialization of `master.bin` writes: its numbers are read back, and the
lines of the text stay ended.
-/

namespace LelyRtt.Dcf

open Text

/-! ### Numbers in hexadecimal -/

section

variable {w n : Nat} {entry : ConciseDcfEntry} {value : List Char}

theorem upperHex_spec (w n : Nat)
    : natOfDigits 16 (upperHex w n) = n ∧ upperHex w n ≠ []
      ∧ ∀ c ∈ upperHex w n, isHex c = true ∧ isSpace c = false ∧ c ≠ ']' := by
  have hdigit : ∀ d : Fin 16, hexDigit d.1.digitChar.toUpper = some d.1 ∧ isHex d.1.digitChar.toUpper = true
      ∧ isSpace d.1.digitChar.toUpper = false ∧ d.1.digitChar.toUpper ≠ ']' := by decide
  obtain ⟨hvalue, hne, hall⟩ := toDigits_spec (f := Char.toUpper) (by decide) (fun d hd => (hdigit ⟨d, hd⟩).1) n
  rw [upperHex, List.leftpad]
  refine ⟨by rw [natOfDigits_zeros, hvalue], by simp [hne], fun c hc => ?_⟩
  obtain hc | hc := List.mem_append.mp hc
  . rw [List.eq_of_mem_replicate hc]
    decide
  . obtain ⟨d, hd, rfl⟩ := hall c hc
    exact (hdigit ⟨d, hd⟩).2

/-- The value of an entry is written. -/
theorem formatU32_ok (h : formatU32 entry = .ok value)
    : value = ['0', 'x'] ++ upperHex 8 (leNat entry.data) ∧ entry.data.length = 4 := by
  unfold formatU32 at h
  split at h
  next => cases h
  next hlength =>
    cases h
    exact ⟨rfl, by omega⟩

theorem written_upperHex (w n : Nat) : Written (['0', 'x'] ++ upperHex w n) := by
  refine ⟨by simp, fun c hc => ?_⟩
  obtain hc | hc := List.mem_append.mp hc
  . simp only [List.mem_cons, List.not_mem_nil, or_false] at hc
    obtain rfl | rfl := hc <;> decide
  . exact ((upperHex_spec w n).2.2 c hc).2

end

/-! ### Lines stay ended -/

section

variable {cf : CaseFold} {lines : List (List Char)} {text out line line' name key value : List Char} {kv : KeyValue}
  {index subidx maxNodeId : Nat} {entry : ConciseDcfEntry} {s : Section}

theorem ended_plain (h : Plain line) : EndedLines (splitLines line) := by
  have hline := ended_line h (.inl rfl)
  rwa [List.append_nil] at hline

theorem ended_newline (h : Plain line) (text : List Char) : EndedLines (splitLines (line ++ newlineFor text)) := by
  refine ended_line h (.inr ?_)
  unfold newlineFor
  split
  . exact .inr rfl
  . exact .inl rfl

theorem plain_decimal (n : Nat) : Plain (decimal n) := (written_decimal n).plain

theorem plain_upperHex (w n : Nat) : Plain (upperHex w n) :=
  (written_upperHex w n).plain.sublist (List.sublist_append_right _ _)

/-- A value of a line is plain. -/
theorem plain_value (h : IsKeyValue kv line) (hended : EndedLines lines) (hmem : line ∈ lines) : Plain kv.value := by
  by_cases hne : kv.value = []
  . rw [hne]
    exact plain_nil
  . exact (h.plain hended hmem hne).sublist (List.sublist_append_right _ _)

/-- A line without a value has no line end behind it. -/
theorem IsKeyValue.stop_nil (h : IsKeyValue kv line) (hnil : kv.value = []) : kv.stop = [] := by
  have hbegins := h.begins
  rw [hnil, List.nil_append] at hbegins
  obtain hstop | hstop | hstop := h.stop_cases
  . exact hstop
  . rw [hstop] at hbegins
    exact absurd (hbegins '\n' rfl) (by decide)
  . rw [hstop] at hbegins
    exact absurd (hbegins '\r' rfl) (by decide)

theorem replaceKeyValue_ended (hended : EndedLines lines) (hmem : line ∈ lines) (hvalue : Plain value)
    (h : replaceKeyValue line value = .ok line') : EndedLines (splitLines line') := by
  unfold replaceKeyValue at h
  split at h
  next => cases h
  next kv hmatch =>
    cases h
    have hkv := matchKeyValue_eq_some.mp hmatch
    by_cases hne : kv.value = []
    . have hhead : line = kv.head := by
        rw [hkv.line, hne, hkv.stop_nil hne]
        simp
      rw [hkv.stop_nil hne, List.append_nil, ← hhead]
      exact ended_append (ended_of_mem hended hmem) (ended_plain hvalue)
    . rw [← List.append_assoc]
      refine ended_line (Plain.append ?_ hvalue) hkv.stop_cases
      exact (hkv.plain hended hmem hne).sublist (List.sublist_append_left _ _)

theorem upsertSectionValue_ended (hended : EndedLines (splitLines text)) (hkey : Plain key) (hvalue : Plain value)
    (h : upsertSectionValue cf text name key value = .ok out) : EndedLines (splitLines out) := by
  unfold upsertSectionValue at h
  dsimp only at h
  split at h
  next => cases h
  next s _ =>
    split at h
    next v i _ =>
      obtain ⟨line', hreplace, h⟩ := bind_eq_ok.mp h
      cases h
      have hline' : EndedLines (splitLines line') := by
        by_cases hi : i < (splitLines text).length
        . rw [List.getD_eq_getElem _ _ hi] at hreplace
          exact replaceKeyValue_ended hended (List.getElem_mem hi) hvalue hreplace
        . rw [List.getD_eq_default _ _ (by omega)] at hreplace
          cases hreplace
      refine ended_flatten fun l hl => ?_
      obtain hl | rfl := List.mem_or_eq_of_mem_set hl
      . exact ended_of_mem hended hl
      . exact hline'
    next =>
      cases h
      refine ended_flatten fun l hl => ?_
      obtain hl | hl := List.mem_append.mp hl
      . exact ended_of_mem hended (List.mem_of_mem_take hl)
      . obtain rfl | hl := List.mem_cons.mp hl
        . have hassoc : key ++ '=' :: (value ++ newlineFor text) = (key ++ '=' :: value) ++ newlineFor text := by simp
          rw [hassoc]
          exact ended_newline (hkey.append (plain_cons.mpr ⟨by decide, hvalue⟩)) text
        . exact ended_of_mem hended (List.mem_of_mem_drop hl)

theorem mem_segment {α : Type} {l : List α} {start stop : Nat} {x : α} (h : x ∈ segment l start stop) : x ∈ l :=
  List.mem_of_mem_drop (List.mem_of_mem_take h)

theorem plain_getD {found : Option (List Char)} (h : ∀ v, found = some v → Plain v) : Plain (found.getD []) := by
  cases found with
  | none => exact plain_nil
  | some v => exact h v rfl

/-- The values that are read from a section are plain. -/
theorem plain_items (hended : EndedLines lines) {key : Nat} {v : List Char}
    (hfound : (dictOf ((sectionKeyValues lines s).filterMap fun (kv, _) =>
      (numericKey cf kv).map fun n => (n, strip kv.value))).lookup key = some v) : Plain v := by
  obtain ⟨⟨kv, i⟩, hitem, hv⟩ := List.mem_filterMap.mp (mem_of_lookup hfound)
  obtain ⟨_, _, heq⟩ := Option.map_eq_some_iff.mp hv
  cases heq
  obtain ⟨_, line, hline, hmatch⟩ := mem_keyValues hitem
  have hplain := plain_value (matchKeyValue_eq_some.mp hmatch) hended (mem_segment (List.mem_of_getElem? hline))
  refine hplain.sublist ?_
  exact (List.rdropWhile_prefix _ _).sublist.trans (List.dropWhile_suffix _).sublist

theorem upsertCompactValue_ended (hended : EndedLines (splitLines text)) (hvalue : Plain value)
    (h : upsertCompactValue cf text index subidx value = .ok out) : EndedLines (splitLines out) := by
  have hnewline {line : List Char} (hline : Plain line) := ended_newline hline text
  have hheader : EndedLines (splitLines ('[' :: (upperHex 4 index ++ "Value".toList ++ ']' :: newlineFor text))) := by
    have hassoc : '[' :: (upperHex 4 index ++ "Value".toList ++ ']' :: newlineFor text)
        = ('[' :: (upperHex 4 index ++ ("Value".toList ++ [']']))) ++ newlineFor text := by simp
    rw [hassoc]
    exact hnewline (plain_cons.mpr ⟨by decide, (plain_upperHex 4 index).append (by decide)⟩)
  have hentry (key : Nat) {v : List Char} (hv : Plain v)
      : EndedLines (splitLines (decimal key ++ '=' :: (v ++ newlineFor text))) := by
    have hassoc : decimal key ++ '=' :: (v ++ newlineFor text) = (decimal key ++ '=' :: v) ++ newlineFor text := by simp
    rw [hassoc]
    exact hnewline ((plain_decimal key).append (plain_cons.mpr ⟨by decide, hv⟩))
  have hend : EndedLines (splitLines (newlineFor text)) := hnewline plain_nil
  have hcount (n : Nat) : EndedLines (splitLines ("NrOfEntries=".toList ++ (decimal n ++ newlineFor text))) := by
    rw [← List.append_assoc]
    exact hnewline (Plain.append (by decide) (plain_decimal n))
  have hsplice {block : List (List Char)} {i j : Nat} (hblock : ∀ l ∈ block, EndedLines (splitLines l))
      : EndedLines (splitLines ((splitLines text).take i ++ (block ++ (splitLines text).drop j)).flatten) := by
    refine ended_flatten fun l hl => ?_
    obtain hl | hl := List.mem_append.mp hl
    . exact ended_of_mem hended (List.mem_of_mem_take hl)
    . obtain hl | hl := List.mem_append.mp hl
      . exact hblock l hl
      . exact ended_of_mem hended (List.mem_of_mem_drop hl)
  unfold upsertCompactValue at h
  dsimp only at h
  split at h
  next =>
    split at h
    next => cases h
    next parent _ =>
      cases h
      refine hsplice fun l hl => ?_
      simp only [List.mem_cons, List.not_mem_nil, or_false] at hl
      obtain rfl | rfl | rfl | rfl := hl
      . exact hheader
      . exact hnewline (by decide : Plain "NrOfEntries=1".toList)
      . exact hentry subidx hvalue
      . exact hend
  next s _ =>
    cases h
    refine hsplice fun l hl => ?_
    simp only [List.mem_append, List.mem_cons, List.not_mem_nil, or_false, List.mem_map] at hl
    obtain ((rfl | rfl) | ⟨key, _, rfl⟩) | rfl := hl
    . exact hheader
    . exact hcount _
    . refine hentry key ?_
      rw [lookup_dictSet]
      split
      next => exact hvalue
      next => exact plain_getD fun _ hfound => plain_items hended hfound
    . exact hend

/-- The lines stay ended when an entry is written. -/
theorem materializeEntry_ended (hended : EndedLines (splitLines text))
    (h : materializeEntry cf maxNodeId text entry = .ok out) : EndedLines (splitLines out) := by
  unfold materializeEntry at h
  split at h
  next =>
    obtain ⟨_, _, h⟩ := bind_eq_ok.mp h
    obtain ⟨value, hformat, h⟩ := bind_eq_ok.mp h
    obtain ⟨rfl, _⟩ := formatU32_ok hformat
    exact upsertSectionValue_ended hended (by decide) (written_upperHex _ _).plain h
  next =>
    split at h
    next =>
      obtain ⟨_, _, h⟩ := bind_eq_ok.mp h
      split at h
      next => cases h
      next =>
        obtain ⟨value, hformat, h⟩ := bind_eq_ok.mp h
        obtain ⟨rfl, _⟩ := formatU32_ok hformat
        exact upsertCompactValue_ended hended (written_upperHex _ _).plain h
    next => cases h

theorem materializeMasterBin_ended {masterBin : Option (List UInt8)} {materialized : List (Nat × Nat)}
    (hended : EndedLines (splitLines text)) (h : materializeMasterBin cf text masterBin = .ok (out, materialized))
    : EndedLines (splitLines out) := by
  have hrun {maxNodeId : Nat} {entries : List ConciseDcfEntry} {text : List Char} (hended : EndedLines (splitLines text))
      (h : entries.foldlM (materializeEntry cf maxNodeId) text = .ok out) : EndedLines (splitLines out) := by
    induction entries generalizing text with
    | nil =>
      cases h
      exact hended
    | cons entry entries ih =>
      rw [List.foldlM_cons] at h
      obtain ⟨text', hentry, h⟩ := bind_eq_ok.mp h
      exact ih (materializeEntry_ended hended hentry) h
  unfold materializeMasterBin at h
  split at h
  next =>
    cases h
    exact hended
  next =>
    split at h
    next => cases h
    next entries _ =>
      obtain ⟨maxNodeId, _, h⟩ := bind_eq_ok.mp h
      obtain ⟨text', hentries, h⟩ := bind_eq_ok.mp h
      cases h
      exact hrun hended hentries

end

end LelyRtt.Dcf
