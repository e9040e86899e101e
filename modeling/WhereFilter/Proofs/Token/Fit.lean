import WhereFilter.Proofs.Token.Munch

namespace WhereFilter

/-- White space between tokens. -/
def IsGap (g : Text) : Prop :=
  ∀ c ∈ g, Token.isGapChar c = true

theorem isGap_nil : IsGap [] := by
  intro c hc
  cases hc

theorem isGap_space : IsGap [' '] := by
  intro c hc
  rw [List.mem_singleton.mp hc]
  rfl

theorem IsGap.append {g h : Text} (hg : IsGap g) (hh : IsGap h) : IsGap (g ++ h) := by
  intro c hc
  rcases List.mem_append.mp hc with hc | hc
  · exact hg c hc
  · exact hh c hc

/-- A character that joins no token before it. -/
def isBreak (c : Char) : Bool :=
  !(Token.isNameChar c || ['=', '>', '.', '\'', '"'].contains c)

/-- Every token ends before `s`. -/
def Breaks (s : Text) : Prop :=
  s.head?.all isBreak = true

@[simp] theorem breaks_nil : Breaks [] := rfl

@[simp] theorem breaks_cons {c : Char} {s : Text} : Breaks (c :: s) ↔ isBreak c = true := by
  simp [Breaks]

/-- A test has one outcome for all white space if it has for the five characters of it. -/
theorem of_isGapChar (p : Char → Bool) {outcome : Bool}
    (h : [' ', '\t', '\n', '\x0c', '\r'].all (p · == outcome) = true) {c : Char}
    (hc : Token.isGapChar c = true) : p c = outcome := by
  have hm : c ∈ [' ', '\t', '\n', '\x0c', '\r'] := by
    simpa [Token.isGapChar, or_assoc] using hc
  simpa using List.all_eq_true.mp h c hm

theorem isBreak_of_isGapChar {c : Char} (h : Token.isGapChar c = true) : isBreak c = true :=
  of_isGapChar isBreak rfl h

theorem IsGap.breaks_append {g s : Text} (hg : IsGap g) (hs : Breaks s) : Breaks (g ++ s) := by
  cases g with
  | nil => exact hs
  | cons c g => exact breaks_cons.mpr (isBreak_of_isGapChar (hg c (by simp)))

namespace Token

theorem isNameChar_of_isDigit {c : Char} (h : c.isDigit = true) : isNameChar c = true := by
  simp [isNameChar, Char.isAlphanum, h]

theorem head?_any_of_breaks {p : Char → Bool} {s : Text} (hp : ∀ c, p c = true → isBreak c = false)
    (hs : Breaks s) : s.head?.any p = false := by
  cases s with
  | nil => rfl
  | cons c s =>
    by_cases hpc : p c = true
    · have hb := hp c hpc
      rw [breaks_cons.mp hs] at hb
      cases hb
    · simpa using hpc

theorem head?_ne_of_breaks {c : Char} {s : Text} (hc : isBreak c = false) (hs : Breaks s) :
    s.head? ≠ some c := by
  intro hh
  obtain ⟨r, rfl⟩ := List.head?_eq_some_iff.mp hh
  rw [breaks_cons.mp hs] at hc
  cases hc

theorem not_isBreak_of_isNameChar {c : Char} (h : isNameChar c = true) : isBreak c = false := by
  simp [isBreak, h]

theorem Stops.of_breaks {t : Token} {rest : Text} (hb : Breaks rest) : t.Stops rest := by
  have hdigit : rest.head?.any Char.isDigit = false :=
    head?_any_of_breaks (fun c hc => not_isBreak_of_isNameChar (isNameChar_of_isDigit hc)) hb
  obtain ⟨kind, text⟩ := t
  cases kind
  case word => exact head?_any_of_breaks (fun c => not_isBreak_of_isNameChar) hb
  case number =>
    refine ⟨hdigit, .inr ?_⟩
    rintro d r rfl
    exact absurd (breaks_cons.mp hb) (by decide)
  case less => exact ⟨head?_ne_of_breaks (by decide) hb, head?_ne_of_breaks (by decide) hb⟩
  case other => exact fun _ => head?_ne_of_breaks (by decide) hb
  case literal | quoted | equals | greater => exact head?_ne_of_breaks (by decide) hb
  all_goals exact trivial

/-- What a token may stand before depends on one character, and behind the point of a number
on one more. A break does in place of either. -/
theorem Stops.before_break {t : Token} {a rest rest' : Text} (h : t.Stops (a ++ rest))
    (hb : Breaks rest') : t.Stops (a ++ rest') := by
  cases a with
  | nil => exact .of_breaks hb
  | cons c a =>
    obtain ⟨kind, text⟩ := t
    cases kind
    case number =>
      refine ⟨h.1, h.2.imp_right ?_⟩
      intro hd d r he
      cases a with
      | nil =>
        simp only [List.cons_append, List.nil_append, List.cons.injEq] at he
        obtain ⟨-, rfl⟩ := he
        have hdigit := head?_any_of_breaks
          (fun c hc => not_isBreak_of_isNameChar (isNameChar_of_isDigit hc)) hb
        simpa using hdigit
      | cons b a =>
        simp only [List.cons_append, List.cons.injEq] at he hd
        obtain ⟨rfl, rfl, -⟩ := he
        exact hd _ (a ++ rest) ⟨rfl, rfl, rfl⟩
    all_goals exact h

end Token

/-- Gaps hold white space only, and each token is read whole before what follows it. -/
def Fit : List Lexeme → Text → Prop
  | [], _ => True
  | l :: ls, rest =>
    IsGap l.gap ∧ l.token.Formed ∧ l.token.Stops (ls.flatMap Lexeme.text ++ rest) ∧ Fit ls rest

theorem fit_append {xs ys : List Lexeme} {rest : Text} :
    Fit (xs ++ ys) rest ↔ Fit xs (ys.flatMap Lexeme.text ++ rest) ∧ Fit ys rest := by
  induction xs with
  | nil => simp [Fit]
  | cons x xs ih => simp [Fit, ih, and_assoc]

theorem Fit.before_break {ls : List Lexeme} {rest rest' : Text} (h : Fit ls rest)
    (hb : Breaks rest') : Fit ls rest' := by
  induction ls with
  | nil => trivial
  | cons l ls ih => exact ⟨h.1, h.2.1, h.2.2.1.before_break hb, ih h.2.2.2⟩

theorem Fit.formed_of_mem {ls : List Lexeme} {rest : Text} (h : Fit ls rest) {l : Lexeme}
    (hl : l ∈ ls) : l.token.Formed := by
  induction ls with
  | nil => cases hl
  | cons a ls ih =>
    rcases List.mem_cons.mp hl with rfl | hl
    · exact h.2.1
    · exact ih h.2.2.2 hl

theorem Fit.gap_of_mem {ls : List Lexeme} {rest : Text} (h : Fit ls rest) {l : Lexeme}
    (hl : l ∈ ls) : IsGap l.gap := by
  induction ls with
  | nil => cases hl
  | cons a ls ih =>
    rcases List.mem_cons.mp hl with rfl | hl
    · exact h.1
    · exact ih h.2.2.2 hl

/-- The gap before the first token is free. -/
theorem Fit.with_gap {l : Lexeme} {ls : List Lexeme} {rest g : Text} (h : Fit (l :: ls) rest)
    (hg : IsGap g) : Fit ({ l with gap := g } :: ls) rest :=
  ⟨hg, h.2⟩

theorem step_append {l : Lexeme} {rest : Text} (hg : IsGap l.gap) (hf : l.token.Formed)
    (hs : l.token.Stops rest) : step (l.text ++ rest) = .lexeme l rest := by
  obtain ⟨c, r, he, hc, hr⟩ := Token.read?_append hf hs
  have hhead : (l.token.text ++ rest).head?.any Token.isGapChar = false := by
    rw [he]
    simpa using hc
  obtain ⟨ht, hd⟩ := run_append hg hhead
  unfold step
  rw [Lexeme.text, List.append_assoc, hd, ht, he]
  simp [hr]

theorem step_gap {g : Text} (hg : IsGap g) : step g = .done g := by
  obtain ⟨ht, hd⟩ := run_append (r := []) hg rfl
  rw [List.append_nil] at ht hd
  simp [step, ht, hd]

theorem fit_of_step {s rest : Text} {l : Lexeme} (h : step s = .lexeme l rest) :
    IsGap l.gap ∧ l.token.Formed ∧ l.token.Stops rest := by
  unfold step at h
  split at h
  · cases h
  · next c r hd =>
    split at h
    · cases h
    · next t rest' hr =>
      simp only [Step.lexeme.injEq] at h
      obtain ⟨rfl, rfl⟩ := h
      have hc : Token.isGapChar c = false := by
        have hh := head?_dropWhile Token.isGapChar s
        rw [hd] at hh
        simpa using hh
      exact ⟨holds_of_mem_takeWhile, Token.formed_of_read? hc hr⟩

theorem isGap_of_step {s gap : Text} (h : step s = .done gap) : IsGap gap := by
  unfold step at h
  split at h
  · simp only [Step.done.injEq] at h
    subst h
    exact holds_of_mem_takeWhile
  · split at h <;> cases h

theorem scan_of_lexeme {s rest : Text} {l : Lexeme} (h : step s = .lexeme l rest) :
    scan s = match scan rest with
      | .ok found => .ok (found.cons l)
      | .error e => .error ⟨Text.size l.text + e.offset⟩ := by
  rw [scan]
  split
  · next hs => rw [hs] at h; cases h
  · next hs => rw [hs] at h; cases h
  · next hs =>
    rw [hs] at h
    cases h
    cases scan rest <;> rfl

theorem scan_of_done {s gap : Text} (h : step s = .done gap) : scan s = .ok ⟨[], gap⟩ := by
  rw [scan]
  split
  · next hs =>
    rw [hs] at h
    cases h
    rfl
  · next hs => rw [hs] at h; cases h
  · next hs => rw [hs] at h; cases h

theorem scan_nil : scan [] = .ok ⟨[], []⟩ :=
  scan_of_done (step_gap isGap_nil)

/-- A scan finds the lexemes that a text is written from, and no others. -/
theorem scan_eq_ok_iff {s : Text} {found : Scan} :
    scan s = .ok found ↔ found.text = s ∧ Fit found.lexemes found.tail ∧ IsGap found.tail := by
  constructor
  · intro h
    refine ⟨scan_text h, ?_⟩
    fun_induction scan s generalizing found with
    | case1 s gap hs =>
      simp only [Except.ok.injEq] at h
      subst h
      exact ⟨trivial, isGap_of_step hs⟩
    | case2 => simp at h
    | case3 s l rest hs found' hf ih =>
      simp only [Except.ok.injEq] at h
      subst h
      obtain ⟨hfit, htail⟩ := ih hf
      obtain ⟨hg, hform, hstop⟩ := fit_of_step hs
      rw [← scan_text hf] at hstop
      exact ⟨⟨hg, hform, hstop, hfit⟩, htail⟩
    | case4 => simp at h
  · rintro ⟨rfl, hf, ht⟩
    obtain ⟨ls, tail⟩ := found
    induction ls with
    | nil => exact scan_of_done (step_gap ht)
    | cons l ls ih =>
      obtain ⟨hg, hform, hstop, hfit⟩ := hf
      have htext : Scan.text ⟨l :: ls, tail⟩ = l.text ++ Scan.text ⟨ls, tail⟩ :=
        Scan.text_cons l ⟨ls, tail⟩
      have hstep : step (l.text ++ Scan.text ⟨ls, tail⟩) = .lexeme l (Scan.text ⟨ls, tail⟩) :=
        step_append hg hform hstop
      rw [htext, scan_of_lexeme hstep, ih hfit ht]
      rfl

/-- The lexemes without the gap before the first. -/
def unindent : List Lexeme → List Lexeme
  | [] => []
  | l :: ls => { l with gap := [] } :: ls

@[simp] theorem map_token_unindent (ls : List Lexeme) :
    (unindent ls).map Lexeme.token = ls.map Lexeme.token := by
  cases ls <;> rfl

theorem tokens_of_unindent {ls ms : List Lexeme} (h : unindent ls = unindent ms) :
    ls.map Lexeme.token = ms.map Lexeme.token := by
  rw [← map_token_unindent, h, map_token_unindent]

@[simp] theorem slice_unindent (ls : List Lexeme) : slice (unindent ls) = slice ls := by
  cases ls <;> rfl

theorem unindent_eq_append {ls xs ys : List Lexeme} (h : unindent ls = unindent (xs ++ ys)) :
    ∃ xs' ys', ls = xs' ++ ys' ∧ unindent xs' = unindent xs ∧ unindent ys' = unindent ys := by
  cases xs with
  | nil => exact ⟨[], ls, rfl, rfl, h⟩
  | cons x xs =>
    cases ls with
    | nil => cases h
    | cons l ls =>
      obtain ⟨hl, rfl⟩ := List.cons.inj h
      exact ⟨l :: xs, ys, rfl, congrArg (· :: xs) hl, rfl⟩

theorem unindent_eq_cons {ls ys : List Lexeme} {c : Lexeme} (h : unindent ls = unindent (c :: ys)) :
    ∃ c', ls = c' :: ys ∧ c'.token = c.token := by
  cases ls with
  | nil => cases h
  | cons l ls =>
    obtain ⟨hl, rfl⟩ := List.cons.inj h
    exact ⟨l, rfl, (Lexeme.mk.inj hl).2⟩

theorem scan_gap_append {g s : Text} {found : Scan} (hg : IsGap g) (h : scan s = .ok found) :
    ∃ found', scan (g ++ s) = .ok found' ∧
      unindent found'.lexemes = unindent found.lexemes := by
  obtain ⟨rfl, hf, ht⟩ := scan_eq_ok_iff.mp h
  obtain ⟨ls, tail⟩ := found
  cases ls with
  | nil =>
    exact ⟨⟨[], g ++ tail⟩, scan_eq_ok_iff.mpr ⟨rfl, trivial, hg.append ht⟩, rfl⟩
  | cons l ls =>
    refine ⟨⟨{ l with gap := g ++ l.gap } :: ls, tail⟩, scan_eq_ok_iff.mpr ⟨?_, ?_, ht⟩, rfl⟩
    · simp [Scan.text, Lexeme.text]
    · exact hf.with_gap (hg.append hf.1)

/-- A token in front of a text that does not join it. -/
theorem scan_token_append {t : Token} {s : Text} {found : Scan} (hf : t.Formed) (hs : t.Stops s)
    (h : scan s = .ok found) : scan (t.text ++ s) = .ok (found.cons ⟨[], t⟩) := by
  have hstep : step (t.text ++ s) = .lexeme ⟨[], t⟩ s := step_append (l := ⟨[], t⟩) isGap_nil hf hs
  rw [scan_of_lexeme hstep, h]

/-- Two texts keep their lexemes, but for the gap between them, if the second starts with a
break. -/
theorem scan_append {s s' : Text} {found found' : Scan} (h : scan s = .ok found)
    (h' : scan s' = .ok found') (hb : Breaks s') :
    ∃ ls tail, scan (s ++ s') = .ok ⟨found.lexemes ++ ls, tail⟩ ∧
      unindent ls = unindent found'.lexemes := by
  obtain ⟨rfl, hf, ht⟩ := scan_eq_ok_iff.mp h
  obtain ⟨⟨ls, tail⟩, hk, hls⟩ := scan_gap_append ht h'
  obtain ⟨he, hf', ht'⟩ := scan_eq_ok_iff.mp hk
  have he : ls.flatMap Lexeme.text ++ tail = found.tail ++ s' := he
  have hfit : Fit found.lexemes (ls.flatMap Lexeme.text ++ tail) := by
    rw [he]
    exact hf.before_break (ht.breaks_append hb)
  refine ⟨ls, tail, scan_eq_ok_iff.mpr ⟨?_, fit_append.mpr ⟨hfit, hf'⟩, ht'⟩, hls⟩
  simp [Scan.text, he]

/-- The first gap is all that is written of tokens and not in their slice. -/
theorem flatMap_text_cons (l : Lexeme) (ls : List Lexeme) :
    (l :: ls).flatMap Lexeme.text = l.gap ++ slice (l :: ls) := by
  simp [slice, Lexeme.text]

/-- A slice stands in the text, behind the tokens before it and its first gap. -/
theorem slice_in_text {s : Text} {found : Scan} (hs : scan s = .ok found) {xs ls ys : List Lexeme}
    {l : Lexeme} (h : found.lexemes = xs ++ (l :: ls ++ ys)) :
    s = (xs.flatMap Lexeme.text ++ l.gap) ++ slice (l :: ls) ++
      (ys.flatMap Lexeme.text ++ found.tail) := by
  rw [← scan_text hs, Scan.text, h, List.flatMap_append, List.flatMap_append, flatMap_text_cons]
  simp only [List.append_assoc]

theorem scan_slice {ls : List Lexeme} {rest : Text} (h : Fit ls rest) :
    scan (slice ls) = .ok ⟨unindent ls, []⟩ := by
  apply scan_eq_ok_iff.mpr
  cases ls with
  | nil => exact ⟨rfl, trivial, isGap_nil⟩
  | cons l ls =>
    refine ⟨?_, (h.with_gap isGap_nil).before_break breaks_nil, isGap_nil⟩
    simp [Scan.text, slice, unindent, Lexeme.text]

/-- The tokens of a text without the gaps between them. -/
def tokensOf (s : Text) : Except Unclosed (List Token) :=
  (scan s).map Scan.tokens

theorem tokensOf_eq_ok_iff_scan {s : Text} {ts : List Token} :
    tokensOf s = .ok ts ↔ ∃ found, scan s = .ok found ∧ found.tokens = ts := by
  unfold tokensOf
  cases scan s <;> simp [Except.map]

theorem tokensOf_eq_ok_iff {s : Text} {ts : List Token} :
    tokensOf s = .ok ts ↔ ∃ ls tail, s = ls.flatMap Lexeme.text ++ tail ∧ Fit ls tail ∧
      IsGap tail ∧ ls.map Lexeme.token = ts := by
  rw [tokensOf_eq_ok_iff_scan]
  constructor
  · rintro ⟨found, hs, rfl⟩
    obtain ⟨ht, hf, hg⟩ := scan_eq_ok_iff.mp hs
    exact ⟨found.lexemes, found.tail, ht.symm, hf, hg, rfl⟩
  · rintro ⟨ls, tail, rfl, hf, hg, rfl⟩
    exact ⟨⟨ls, tail⟩, scan_eq_ok_iff.mpr ⟨rfl, hf, hg⟩, rfl⟩

theorem tokensOf_gap_append {g s : Text} {ts : List Token} (hg : IsGap g)
    (h : tokensOf s = .ok ts) : tokensOf (g ++ s) = .ok ts := by
  obtain ⟨found, hs, rfl⟩ := tokensOf_eq_ok_iff_scan.mp h
  obtain ⟨found', hs', hls⟩ := scan_gap_append hg hs
  exact tokensOf_eq_ok_iff_scan.mpr ⟨found', hs', tokens_of_unindent hls⟩

/-- A token in front of a text that does not join it. -/
theorem tokensOf_token_append {t : Token} {s : Text} {ts : List Token} (hf : t.Formed)
    (hs : t.Stops s) (h : tokensOf s = .ok ts) : tokensOf (t.text ++ s) = .ok (t :: ts) := by
  obtain ⟨found, hfound, rfl⟩ := tokensOf_eq_ok_iff_scan.mp h
  exact tokensOf_eq_ok_iff_scan.mpr ⟨_, scan_token_append hf hs hfound, rfl⟩

end WhereFilter
