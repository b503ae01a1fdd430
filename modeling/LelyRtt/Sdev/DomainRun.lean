import LelyRtt.Sdev.Materialize

/-!
This module contains the loop of the materialization: what holds of all sub-objects after any number of
DOMAIN values, and from it what is found in the output.
-/

namespace LelyRtt.Sdev.Domain

open Text Dcf

/-- What the values in `done` have made of the sub-objects `subs₀` of the object. -/
structure Progress (w : WordChar) (newline : List Char) (before first after : List Line)
    (subs₀ subs : List (List Line)) (lines : List Line) (done : List DomainValue) : Prop where
  shape : Shape lines before first subs after
  places : ∀ subidx, place subs subidx = place subs₀ subidx
  length : subs.length = subs₀.length
  tidy : ∀ l ∈ lines, Tidy l
  filled : ∀ k body, subs[k]? = some body → subs₀[k]? = some body
    ∨ ∃ d ∈ done, place subs₀ d.subidx = some k
      ∧ ∃ body₀, subs₀[k]? = some body₀ ∧ Filled newline d.data body₀ body
  held : ∀ d ∈ done, ∃ k body, place subs₀ d.subidx = some k ∧ subs[k]? = some body
    ∧ Holds w body d.data ∧ Flagged body

section

variable {w : WordChar} {newline : List Char} {before first after lines lines' : List Line}
  {subs₀ subs : List (List Line)} {done : List DomainValue} {domain : DomainValue} {changed changed' : List Nat}

/-- The range of a sub-object after an edit of it. -/
theorem Shape.set_range {body body' front back : List Line} {subidx k : Nat}
    (h : Shape lines before first subs after) (hplace : place subs subidx = some k)
    (hat : Shape.At before first subs after subidx k body front back) (hmarks : SameMarks body body')
    : domainRange (front ++ (body' ++ back)) subidx = .ok (front.length, front.length + body'.length) := by
  obtain ⟨hk, hbody⟩ := List.getElem?_eq_some_iff.mp hat.sub
  have hchunk : Chunk cSub body := h.chunked.chunk body (List.mem_of_getElem? hat.sub)
  have hset := (h.set hat.sub hmarks).range subidx
  rw [hat.split, place_set hat.sub (hmarks.chunk hchunk).2, hplace] at hset
  have htake : (subs.set k body').take k = subs.take k := List.take_set_of_le (Nat.le_refl k)
  have htake' : (subs.set k body').take (k + 1) = subs.take k ++ [body'] := by
    rw [List.take_add_one, htake, List.getElem?_set_self hk]
    rfl
  rw [hset, hat.eq]
  simp [htake, htake', Nat.add_assoc]

/-- One more value is written. -/
theorem Progress.step (hnewline : Newline newline) (h : Progress w newline before first after subs₀ subs lines done)
    (hstep : materializeDomain w newline (lines, changed) domain = .ok (lines', changed'))
    : ∃ subs', Progress w newline before first after subs₀ subs' lines' (done ++ [domain]) := by
  obtain ⟨⟨mid, changed₁⟩, hvalue, hflags⟩ := bind_eq_ok.mp hstep
  obtain ⟨k, hplace⟩ : ∃ k, place subs domain.subidx = some k := by
    obtain ⟨⟨start, stop⟩, hrange, _⟩ := bind_eq_ok.mp hvalue
    rw [h.shape.range] at hrange
    cases hplace : place subs domain.subidx with
    | none =>
      rw [hplace] at hrange
      cases hrange
    | some k => exact ⟨k, rfl⟩
  obtain ⟨body, front, back, hat, hlines, hrange⟩ := h.shape.at hplace
  have hchunk : Chunk cSub body := h.shape.chunked.chunk body (List.mem_of_getElem? hat.sub)
  have htidy : ∀ l ∈ body, Tidy l := fun l hl => h.tidy l (by rw [hlines]; simp [hl])
  obtain ⟨hk, _⟩ := List.getElem?_eq_some_iff.mp hat.sub
  rw [hlines] at hvalue hrange
  obtain ⟨body₁, rfl, hfilled₁, hholds₁, hkeep₁⟩ := materializeValue_ok htidy hrange hvalue hnewline
  have hrange₁ := h.shape.set_range hplace hat (hfilled₁.sameMarks hnewline hchunk)
  obtain ⟨body₂, rfl, hfilled₂, hflagged, hkeep₂⟩ := materializeFlags_ok hrange₁ hflags
  have hfilled : Filled newline domain.data body body₂ := ⟨body₁, hfilled₁, hfilled₂⟩
  have hholds : Holds w body₂ domain.data := hfilled₂.holds hnewline hholds₁
  -- a sub-object that is done is kept
  have hkeep {data : List UInt8} (hdata : Holds w body data) (hflagged : Flagged body) : body₂ = body := by
    have heq := hkeep₁ data hdata
    rw [heq] at hkeep₂
    exact hkeep₂ hflagged
  have hmarks := hfilled.sameMarks hnewline hchunk
  have hself : (subs.set k body₂)[k]? = some body₂ := List.getElem?_set_self hk
  have hplace₀ : place subs₀ domain.subidx = some k := (h.places _).symm.trans hplace
  refine ⟨subs.set k body₂, ?_, ?_, by rw [List.length_set, h.length], ?_, ?_, ?_⟩
  . rw [← hat.split]
    exact h.shape.set hat.sub hmarks
  . intro subidx
    rw [place_set hat.sub (hmarks.chunk hchunk).2, h.places]
  . intro l hl
    simp only [List.mem_append] at hl
    obtain hl | hl | hl := hl
    . exact h.tidy l (by rw [hlines]; simp [hl])
    . exact hfilled.tidy hnewline htidy l hl
    . exact h.tidy l (by rw [hlines]; simp [hl])
  . intro j body' hbody'
    by_cases hj : k = j
    . subst hj
      obtain rfl : body₂ = body' := Option.some_inj.mp (hself.symm.trans hbody')
      obtain hsame | ⟨d, hd, hdplace, body₀, hbody₀, hd'⟩ := h.filled k body hat.sub
      . exact .inr ⟨domain, by simp, hplace₀, body, hsame, hfilled⟩
      . obtain ⟨k', body'', hk', hbody'', hdholds, hdflagged⟩ := h.held d hd
        obtain rfl : k = k' := Option.some_inj.mp (hdplace.symm.trans hk')
        obtain rfl : body = body'' := Option.some_inj.mp (hat.sub.symm.trans hbody'')
        rw [hkeep hdholds hdflagged]
        exact .inr ⟨d, List.mem_append_left _ hd, hdplace, body₀, hbody₀, hd'⟩
    . rw [List.getElem?_set_ne hj] at hbody'
      exact (h.filled j body' hbody').imp_right fun ⟨d, hd, hrest⟩ => ⟨d, List.mem_append_left _ hd, hrest⟩
  . intro d hd
    obtain hd | hd := List.mem_append.mp hd
    . obtain ⟨k', body', hk', hbody', hdholds, hdflagged⟩ := h.held d hd
      by_cases heq : k = k'
      . subst heq
        obtain rfl : body = body' := Option.some_inj.mp (hat.sub.symm.trans hbody')
        rw [hkeep hdholds hdflagged]
        refine ⟨k, body, hk', List.getElem?_set_self hk, hdholds, hdflagged⟩
      . exact ⟨k', body', hk', by rw [List.getElem?_set_ne heq, hbody'], hdholds, hdflagged⟩
    . rw [List.mem_singleton.mp hd]
      exact ⟨k, body₂, hplace₀, hself, hholds, hflagged⟩

/-- The loop of `materialize`. -/
theorem Progress.run (hnewline : Newline newline) {domains : List DomainValue}
    (h : Progress w newline before first after subs₀ subs lines done)
    (hrun : domains.foldlM (materializeDomain w newline) (lines, changed) = .ok (lines', changed'))
    : ∃ subs', Progress w newline before first after subs₀ subs' lines' (done ++ domains) := by
  induction domains generalizing lines changed subs done with
  | nil =>
    cases hrun
    exact ⟨subs, by simpa using h⟩
  | cons domain domains ih =>
    rw [List.foldlM_cons] at hrun
    obtain ⟨⟨mid, changed₁⟩, hstep, hrun⟩ := bind_eq_ok.mp hrun
    obtain ⟨subs₁, hprogress⟩ := h.step hnewline hstep
    obtain ⟨subs₂, hresult⟩ := ih hprogress hrun
    exact ⟨subs₂, by simpa using hresult⟩

end

/-! ### The output -/

/-- The lines of the output from line `n` of the input: lines are kept, and the lines of a sub-object of
a DOMAIN value are kept up to its initializer and its flag line. -/
inductive Grown (lines : List Line) (domains : List DomainValue) (newline : List Char)
    : Nat → List Line → List Line → Prop
  | nil (n : Nat) : Grown lines domains newline n [] []
  | keep {n : Nat} {line : Line} {rest rest' : List Line} : Grown lines domains newline (n + 1) rest rest' →
      Grown lines domains newline n (line :: rest) (line :: rest')
  | fill {n : Nat} {domain : DomainValue} {body body' rest rest' : List Line} : domain ∈ domains →
      domainRange lines domain.subidx = .ok (n, n + body.length) → Filled newline domain.data body body' →
      Grown lines domains newline (n + body.length) rest rest' →
      Grown lines domains newline n (body ++ rest) (body' ++ rest')

/-- The sub-object has an initializer with bytes. -/
structure Existing (w : WordChar) (lines : List Line) (subidx : Nat) (data : List UInt8) : Prop where
  found : ∃ start stop valStart, domainRange lines subidx = .ok (start, stop)
    ∧ firstLine ".val =".toList lines start stop = some valStart
    ∧ extractInitializerBytes w lines valStart (initializerEnd lines valStart stop) = .ok (some data)

section

variable {w : WordChar} {newline : List Char} {before first after lines lines' : List Line}
  {subs₀ subs : List (List Line)} {domains : List DomainValue} {domain : DomainValue} {n : Nat}
  {cText out : List Char} {changed : List Nat} {data : List UInt8}

theorem Grown.keep_all {rest rest' : List Line} (a : List Line)
    (h : Grown lines domains newline (n + a.length) rest rest')
    : Grown lines domains newline n (a ++ rest) (a ++ rest') := by
  induction a generalizing n with
  | nil => exact h
  | cons line a ih =>
    refine .keep (ih ?_)
    rw [List.length_cons, Nat.add_comm a.length, ← Nat.add_assoc] at h
    exact h

theorem Grown.refl (lines : List Line) (domains : List DomainValue) (newline : List Char) (n : Nat)
    (a : List Line) : Grown lines domains newline n a a := by
  have h : Grown lines domains newline n (a ++ []) (a ++ []) := .keep_all a (.nil _)
  rwa [List.append_nil] at h

/-- The sub-objects of the output, from the place of the first in `suffix`. -/
theorem Progress.grown_subs (hshape : Shape lines before first subs₀ after)
    (h : Progress w newline before first after subs₀ subs lines' domains)
    {front suffix front' suffix' : List (List Line)} (hfront : subs₀ = front ++ suffix)
    (hfront' : subs = front' ++ suffix') (hlength : front.length = front'.length)
    : Grown lines domains newline (before ++ (first ++ front.flatten)).length (suffix.flatten ++ after)
      (suffix'.flatten ++ after) := by
  have hsuffix : suffix.length = suffix'.length := by
    have hlengths := h.length
    rw [hfront, hfront', List.length_append, List.length_append, hlength] at hlengths
    omega
  induction suffix generalizing front front' suffix' with
  | nil =>
    obtain rfl := List.eq_nil_of_length_eq_zero hsuffix.symm
    exact Grown.refl _ _ _ _ _
  | cons body₀ suffix ih =>
    obtain ⟨body, suffix', rfl⟩ := List.exists_cons_of_length_eq_add_one hsuffix.symm
    have hfront₁ : subs₀ = (front ++ [body₀]) ++ suffix := by rw [hfront]; simp
    have hfront₁' : subs = (front' ++ [body]) ++ suffix' := by rw [hfront']; simp
    have hrest := ih hfront₁ hfront₁' (by simp [hlength]) (by simpa using hsuffix)
    have hnext : (before ++ (first ++ (front ++ [body₀]).flatten)).length
        = (before ++ (first ++ front.flatten)).length + body₀.length := by
      simp [Nat.add_assoc]
    rw [hnext] at hrest
    rw [List.flatten_cons, List.flatten_cons, List.append_assoc, List.append_assoc]
    have hsub₀ : subs₀[front.length]? = some body₀ := by rw [hfront]; simp
    have hsub : subs[front.length]? = some body := by rw [hfront', hlength]; simp
    obtain hsame | ⟨d, hd, hplace, body₁, hbody₁, hfilled⟩ := h.filled _ body hsub
    . obtain rfl : body₀ = body := Option.some_inj.mp (hsub₀.symm.trans hsame)
      exact Grown.keep_all body₀ hrest
    . obtain rfl : body₀ = body₁ := Option.some_inj.mp (hsub₀.symm.trans hbody₁)
      refine .fill hd ?_ hfilled hrest
      rw [hshape.range, hplace, ← hnext]
      simp only
      rw [hfront, List.take_left, List.append_cons front body₀ suffix, List.take_left' (by simp)]

/-- The output consists of the lines of the input and of what is put in. -/
theorem Progress.grown (hshape : Shape lines before first subs₀ after)
    (h : Progress w newline before first after subs₀ subs lines' domains)
    : Grown lines domains newline 0 lines lines' := by
  have hsubs := h.grown_subs hshape (List.nil_append subs₀).symm (List.nil_append subs).symm rfl
  rw [List.flatten_nil, List.append_nil, List.length_append] at hsubs
  have hgrown : Grown lines domains newline 0 (before ++ (first ++ (subs₀.flatten ++ after)))
      (before ++ (first ++ (subs.flatten ++ after))) :=
    Grown.keep_all before (Grown.keep_all first (by rwa [Nat.zero_add]))
  have hlines := hshape.lines
  have hlines' := h.shape.lines
  rw [List.append_assoc] at hlines hlines'
  rwa [← hlines, ← hlines'] at hgrown

/-- The values are in the sub-objects that are found. -/
theorem Progress.materialized (h : Progress w newline before first after subs₀ subs lines domains)
    (hdomain : domain ∈ domains) : Materialized w lines domain := by
  obtain ⟨k, body, hplace, hbody, hholds, hflagged⟩ := h.held domain hdomain
  rw [← h.places] at hplace
  obtain ⟨body', front, back, hat, hlines, hrange⟩ := h.shape.at hplace
  obtain rfl : body = body' := Option.some_inj.mp (hbody.symm.trans hat.sub)
  rw [hlines] at hrange ⊢
  exact hholds.materialized hflagged hrange

/-- An initializer with bytes is the first one of its sub-object. -/
theorem Existing.holds (hshape : Shape lines before first subs after) {subidx : Nat}
    (h : Existing w lines subidx data) : ∃ k body, place subs subidx = some k ∧ subs[k]? = some body
      ∧ Holds w body data := by
  obtain ⟨start, stop, valStart, hrange, hvalue, hbytes⟩ := h.found
  cases hplace : place subs subidx with
  | none =>
    rw [hshape.range, hplace] at hrange
    cases hrange
  | some k =>
    obtain ⟨body, front, back, hat, hlines, hrange'⟩ := hshape.at hplace
    rw [hrange] at hrange'
    cases hrange'
    rw [hlines] at hvalue hbytes
    rw [firstLine_range] at hvalue
    obtain ⟨i, hindex, rfl⟩ := Option.map_eq_some_iff.mp hvalue
    obtain ⟨b, v, b', rfl, rfl, hv, hb⟩ := findIdx?_eq_append.mp hindex
    refine ⟨k, b ++ v :: b', rfl, hat.sub, b, v, b', rfl, hb, hv, ?_⟩
    cases hnull : contains ".dom = NULL".toList v with
    | true =>
      rw [extract_null hnull] at hbytes
      cases hbytes
    | false =>
      cases hdomain : contains "CO_DOMAIN_C".toList v with
      | false =>
        rw [extractInitializerBytes, getD_range] at hbytes
        simp only [hnull, hdomain, Bool.false_eq_true, if_false, Bool.not_false, if_true] at hbytes
        cases hbytes
      | true =>
        rw [extract_bytes _ _ _ _ _ hnull hdomain] at hbytes
        cases hbytes
        exact ⟨rfl, rfl, rfl⟩

/-- What a run of `materialize` that succeeds has done, if there is a value at all. -/
theorem materialize_progress (htidy : ∀ line ∈ splitLines cText, Tidy line) (hne : domains ≠ [])
    (h : materialize w cText domains = .ok (out, changed))
    : ∃ before first after subs₀ subs, Shape (splitLines cText) before first subs₀ after
      ∧ Progress w (newlineFor cText) before first after subs₀ subs (splitLines out) domains := by
  obtain ⟨⟨lines, changed'⟩, hrun, hresult⟩ := bind_eq_ok.mp h
  obtain ⟨before, first, subs₀, after, hshape⟩ : ∃ before first subs₀ after,
      Shape (splitLines cText) before first subs₀ after := by
    obtain ⟨domain, rest, rfl⟩ := List.exists_cons_of_ne_nil hne
    rw [List.foldlM_cons] at hrun
    obtain ⟨_, hstep, _⟩ := bind_eq_ok.mp hrun
    obtain ⟨_, hvalue, _⟩ := bind_eq_ok.mp hstep
    obtain ⟨_, hrange, _⟩ := bind_eq_ok.mp hvalue
    obtain ⟨⟨start, stop⟩, hobject, _⟩ := bind_eq_ok.mp hrange
    exact exists_shape hobject
  have hstart : Progress w (newlineFor cText) before first after subs₀ subs₀ (splitLines cText) [] :=
    ⟨hshape, fun _ => rfl, rfl, htidy, fun _ _ hbody => .inl hbody, fun _ hd => nomatch hd⟩
  obtain ⟨subs, hprogress⟩ := hstart.run (newline_newlineFor cText) hrun
  have hout : splitLines out = lines := by
    have hflatten : out = lines.flatten := by
      simp only at hresult
      split at hresult
      next => cases hresult
      next =>
        cases hresult
        rfl
    rw [hflatten]
    exact splitLines_flatten (lines_of_tidy hprogress.tidy)
  rw [hout]
  exact ⟨before, first, after, subs₀, subs, hshape, by simpa using hprogress⟩

/-- Behind a successful run, each value is found in its sub-object, the other lines are kept, and a
second run has nothing to do; where another value stands already, the run raises; and an initializer
decodes to its bytes. -/
theorem domains_materialized (w : WordChar) (htidy : ∀ line ∈ splitLines cText, Tidy line)
    : (∀ out changed, materialize w cText domains = .ok (out, changed) →
        (∀ domain ∈ domains, Materialized w (splitLines out) domain)
        ∧ Grown (splitLines cText) domains (newlineFor cText) 0 (splitLines cText) (splitLines out)
        ∧ materialize w out domains = .ok (out, []))
      ∧ (∀ domain ∈ domains, ∀ data, Existing w (splitLines cText) domain.subidx data → data ≠ domain.data →
        ∃ e, materialize w cText domains = .error e)
      ∧ ∀ blanks data before after, Blank blanks →
        extractInitializerBytes w (before ++ (domainInitializer blanks data (newlineFor cText) ++ after))
            before.length (initializerEnd (before ++ (domainInitializer blanks data (newlineFor cText) ++ after))
              before.length (before.length + (domainInitializer blanks data (newlineFor cText)).length))
          = .ok (some data) := by
  refine ⟨fun out changed h => ?_, fun domain hdomain data hexisting hne => ?_, ?_⟩
  . have hagain (hall : ∀ domain ∈ domains, Materialized w (splitLines out) domain)
        : materialize w out domains = .ok (out, []) := by
      have hrun (newline : List Char) : domains.foldlM (materializeDomain w newline) (splitLines out, [])
          = .ok (splitLines out, []) := by
        clear h
        induction domains with
        | nil => rfl
        | cons domain domains ih =>
          rw [List.foldlM_cons, (hall domain List.mem_cons_self).keep]
          exact ih fun domain hmem => hall domain (List.mem_cons_of_mem _ hmem)
      obtain ⟨⟨lines, changed'⟩, _, hresult⟩ := bind_eq_ok.mp h
      have hfile : (contains "CO_OBJ_FLAGS_UPLOAD_FILE".toList out
          || contains "CO_OBJ_FLAGS_DOWNLOAD_FILE".toList out) = false := by
        simp only at hresult
        split at hresult
        next => cases hresult
        next hfile =>
          cases hresult
          simpa using hfile
      rw [materialize, hrun]
      change (if (contains _ (splitLines out).flatten || contains _ (splitLines out).flatten) = true
        then _ else _) = _
      rw [flatten_splitLines, hfile]
      rfl
    by_cases hnil : domains = []
    . subst hnil
      obtain ⟨⟨lines, changed'⟩, hrun, hresult⟩ := bind_eq_ok.mp h
      cases hrun
      have hout : out = cText := by
        simp only at hresult
        split at hresult
        next => cases hresult
        next =>
          cases hresult
          exact flatten_splitLines cText
      subst hout
      exact ⟨fun _ hmem => (nomatch hmem), Grown.refl _ _ _ _ _, hagain fun _ hmem => (nomatch hmem)⟩
    . obtain ⟨before, first, after, subs₀, subs, hshape, hprogress⟩ := materialize_progress htidy hnil h
      have hall : ∀ domain ∈ domains, Materialized w (splitLines out) domain :=
        fun domain hmem => hprogress.materialized hmem
      exact ⟨hall, hprogress.grown hshape, hagain hall⟩
  . cases hresult : materialize w cText domains with
    | error e => exact ⟨e, rfl⟩
    | ok result =>
      obtain ⟨out, changed⟩ := result
      obtain ⟨before, first, after, subs₀, subs, hshape, hprogress⟩ :=
        materialize_progress htidy (List.ne_nil_of_mem hdomain) hresult
      obtain ⟨k, body₀, hplace₀, hbody₀, hholds₀⟩ := hexisting.holds hshape
      obtain ⟨k', body, hplace, hbody, hholds, _⟩ := hprogress.held domain hdomain
      obtain rfl : k = k' := Option.some_inj.mp (hplace₀.symm.trans hplace)
      have hkept : Holds w body data := by
        obtain hsame | ⟨d, _, _, body₁, hbody₁, hfilled⟩ := hprogress.filled k body hbody
        . obtain rfl : body₀ = body := Option.some_inj.mp (hbody₀.symm.trans hsame)
          exact hholds₀
        . obtain rfl : body₀ = body₁ := Option.some_inj.mp (hbody₀.symm.trans hbody₁)
          exact hfilled.holds (newline_newlineFor cText) hholds₀
      exact absurd (hkept.unique hholds) hne
  . intro blanks data before after hblank
    have hindent : blanks = indent blanks := (List.takeWhile_eq_self_iff.mpr hblank).symm
    have hnewline := newline_newlineFor cText
    have hholds : Holds w ([] ++ (domainInitializer (indent blanks) data (newlineFor cText) ++ [])) data :=
      holds_domainInitializer hnewline fun _ hmem => nomatch hmem
    rw [← hindent, List.nil_append, List.append_nil] at hholds
    obtain ⟨b, v, b', hsplit, hb, hv, hnull, hdomain, hbytes⟩ := hholds.split
    have hnil : b = [] := by
      have hhead : contains ".val =".toList (blanks ++ (".val = \x7b .dom = CO_DOMAIN_C(co_unsigned8_t, \x7b".toList
          ++ newlineFor cText)) = true := by
        rw [contains_iff]
        exact ⟨blanks, " \x7b .dom = CO_DOMAIN_C(co_unsigned8_t, \x7b".toList ++ newlineFor cText, by simp⟩
      cases b with
      | nil => rfl
      | cons l b =>
        obtain ⟨rfl, _⟩ := List.cons.inj hsplit
        have hnot := hb _ List.mem_cons_self
        rw [hhead] at hnot
        cases hnot
    subst hnil
    rw [hsplit]
    have hextract := extract_bytes w before after [] b' hnull hdomain
    rw [hbytes] at hextract
    exact hextract

/-- A sub-object with a NULL initializer gets two bytes. -/
theorem domains_materialized_two
    : Materialized ⟨isWord, fun _ _ => rfl⟩ (splitLines (".idx = 0x1F22,\n.subidx = 0x01,\n".toList
        ++ ".val = \x7b .dom = CO_DOMAIN_C(co_unsigned8_t, \x7b\n\t0x01, 0xff\n\x7d) \x7d,\n".toList
        ++ ".flags = 0\n\t| CO_OBJ_FLAGS_PARAMETER_VALUE\n".toList)) ⟨1, [1, 0xff]⟩ := by
  have hlines : splitLines ".idx = 0x1F22,\n.subidx = 0x01,\n.val = \x7b .dom = NULL \x7d,\n.flags = 0\n".toList
      = [".idx = 0x1F22,\n".toList, ".subidx = 0x01,\n".toList, ".val = \x7b .dom = NULL \x7d,\n".toList,
        ".flags = 0\n".toList] := by decide
  have hline (body : List Char) (hplain : ∀ c ∈ body, isBoundary c = false)
      (hdomain : contains "CO_DOMAIN_C".toList (body ++ ['\n']) = false) : Tidy (body ++ ['\n']) :=
    ⟨⟨body, ['\n'], rfl, hplain, .inl rfl⟩, fun h => Bool.false_ne_true (hdomain.symm.trans h.2)⟩
  have htidy : ∀ line ∈ splitLines
      ".idx = 0x1F22,\n.subidx = 0x01,\n.val = \x7b .dom = NULL \x7d,\n.flags = 0\n".toList, Tidy line := by
    rw [hlines]
    intro line hmem
    simp only [List.mem_cons, List.not_mem_nil, or_false] at hmem
    obtain rfl | rfl | rfl | rfl := hmem
    . exact hline ".idx = 0x1F22,".toList (by decide) (by decide)
    . exact hline ".subidx = 0x01,".toList (by decide) (by decide)
    . exact hline ".val = \x7b .dom = NULL \x7d,".toList (by decide) (by decide)
    . exact hline ".flags = 0".toList (by decide) (by decide)
  have hrun : materialize ⟨isWord, fun _ _ => rfl⟩
      ".idx = 0x1F22,\n.subidx = 0x01,\n.val = \x7b .dom = NULL \x7d,\n.flags = 0\n".toList [⟨1, [1, 0xff]⟩]
      = .ok (".idx = 0x1F22,\n.subidx = 0x01,\n".toList
        ++ ".val = \x7b .dom = CO_DOMAIN_C(co_unsigned8_t, \x7b\n\t0x01, 0xff\n\x7d) \x7d,\n".toList
        ++ ".flags = 0\n\t| CO_OBJ_FLAGS_PARAMETER_VALUE\n".toList, [1]) := by decide +kernel
  have hresult := (domains_materialized _ htidy).1 _ _ hrun
  exact hresult.1 ⟨1, [1, 0xff]⟩ List.mem_cons_self

end

end LelyRtt.Sdev.Domain
