import WhereFilter.Proofs.Rule.Removal
import WhereFilter.Proofs.Token.Alike
import WhereFilter.Rule.Translate

namespace WhereFilter

open Token

/-- Each longest run of `q` in `s` has even length. -/
def EvenRuns (q : Char) (s : Text) : Prop :=
  ∀ u n v, s = u ++ (List.replicate n q ++ v) → u.getLast? ≠ some q → v.head? ≠ some q → Even n

namespace EvenRuns

variable {q c : Char} {s : Text}

theorem cons (hc : c ≠ q) : EvenRuns q (c :: s) ↔ EvenRuns q s := by
  constructor
  · intro h u n v hs hu hv
    refine h (c :: u) n v (by rw [hs]; rfl) ?_ hv
    cases u with
    | nil => simpa using hc
    | cons d u => simpa [List.getLast?_cons_cons] using hu
  · intro h u n v hs hu hv
    cases u with
    | nil =>
      cases n with
      | zero => exact .zero
      | succ n => exact absurd (List.cons.inj hs).1 hc
    | cons d u =>
      exact h u n v (List.cons.inj hs).2 (fun hlast => hu (by simp [List.getLast?_cons, hlast])) hv

/-- Two more at the front leave a run as even as it was. -/
theorem pair : EvenRuns q (q :: q :: s) ↔ EvenRuns q s := by
  constructor
  · intro h u n v hs hu hv
    cases u with
    | nil =>
      have heven := h [] (n + 2) v (by rw [hs]; rfl) (by simp) hv
      simpa [Nat.even_add] using heven
    | cons d u =>
      refine h (q :: q :: d :: u) n v (by rw [hs]; rfl) ?_ hv
      simpa [List.getLast?_cons_cons] using hu
  · intro h u n v hs hu hv
    match u with
    | [] =>
      match n with
      | 0 => exact .zero
      | 1 =>
        obtain rfl : q :: s = v := (List.cons.inj hs).2
        exact absurd rfl hv
      | n + 2 =>
        have heven := h [] n v (List.cons.inj (List.cons.inj hs).2).2 (by simp) hv
        simpa [Nat.even_add] using heven
    | [d] =>
      obtain rfl : q = d := (List.cons.inj hs).1
      exact absurd rfl hu
    | d :: e :: u =>
      exact h u n v (List.cons.inj (List.cons.inj hs).2).2
        (fun hlast => hu (by simp [List.getLast?_cons, hlast])) hv

/-- A quote at the front of even runs has another behind it. -/
theorem second (h : EvenRuns q (q :: s)) : ∃ r, s = q :: r := by
  by_contra hne
  have hs : s.head? ≠ some q := fun hhead => hne (List.head?_eq_some_iff.mp hhead)
  have hone := h [] 1 s rfl (by simp) hs
  exact absurd hone (by decide)

end EvenRuns

namespace Token

theorem paired_iff_evenRuns {q : Char} {s : Text} : Paired q s ↔ EvenRuns q s := by
  constructor
  · intro h
    induction h with
    | nil =>
      intro u n v hs _ _
      obtain ⟨-, hs⟩ := List.append_eq_nil_iff.mp hs.symm
      obtain rfl : n = 0 := by simpa using (List.append_eq_nil_iff.mp hs).1
      exact .zero
    | pair _ ih => exact EvenRuns.pair.mpr ih
    | plain hc _ ih => exact (EvenRuns.cons hc).mpr ih
  · intro h
    -- a pair moves on by two
    induction hn : s.length using Nat.strongRecOn generalizing s with
    | _ n ih =>
      subst hn
      cases s with
      | nil => exact .nil
      | cons c s =>
        by_cases hc : c = q
        · subst hc
          obtain ⟨r, rfl⟩ := h.second
          exact .pair (ih _ (by simp) (EvenRuns.pair.mp h) rfl)
        · exact .plain hc (ih _ (by simp) ((EvenRuns.cons hc).mp h) rfl)

/-- A body is not closed exactly where no quote stands alone. -/
theorem body?_eq_none_iff {q : Char} {s : Text} : body? q s = none ↔ Paired q s := by
  have lone {r : Text} (hr : r.head? ≠ some q) : ¬Paired q (q :: r) := by
    intro h
    obtain ⟨d, rfl, -⟩ := h.cases_quote
    exact hr rfl
  fun_induction body? q s with
  | case1 => simp [Paired.nil]
  | case2 => simpa using lone (r := []) (by simp)
  | case3 c hc => simp [Paired.plain hc .nil]
  | case4 r ih =>
    refine Option.map_eq_none_iff.trans (ih.trans ⟨.pair, fun h => ?_⟩)
    obtain ⟨d, hd, hp⟩ := h.cases_quote
    rwa [(List.cons.inj hd).2]
  | case5 d r hd => simpa using lone (r := d :: r) (by simpa using hd)
  | case6 c d r hc ih =>
    exact Option.map_eq_none_iff.trans (ih.trans ⟨.plain hc, .of_cons hc⟩)

theorem read?_eq_none_iff {c : Char} {r : Text} :
    read? c r = none ↔ isQuote c = true ∧ Paired c r := by
  cases hc : isQuote c with
  | false =>
    obtain ⟨t, rest, h⟩ := exists_read? r hc
    simp [h]
  | true =>
    rw [← body?_eq_none_iff]
    simp only [isQuote, Bool.or_eq_true, beq_iff_eq] at hc
    rcases hc with rfl | rfl
    · simp [read?, sign?_eq_none_of (c := '\'') (by decide) (by simp)]
    · simp [read?, sign?_eq_none_of (c := '"') (by decide) (by simp)]

/-- A quote goes on with no token but one that it has just closed. -/
theorem Formed.stops_quote {t : Token} (ht : t.Formed) {q : Char} (hq : isQuote q = true)
    (rest : Text) : t.Stops (q :: rest) ∨ ∃ b, t.text = q :: b ++ [q] ∧ Paired q b := by
  have hne {a : Char} (ha : isQuote a = false) : (q :: rest).head? ≠ some a := by
    intro h
    rw [← Option.some.inj h, hq] at ha
    cases ha
  have hname : isNameChar q = false := not_of_isQuote hq rfl rfl
  have hdigit : q.isDigit = false := not_of_isQuote hq rfl rfl
  obtain ⟨kind, text⟩ := t
  cases kind
  case literal =>
    obtain ⟨b, hb, rfl⟩ := ht
    by_cases h : q = '\''
    · exact .inr ⟨b, by rw [h], h ▸ hb⟩
    · exact .inl (by simpa [Stops] using h)
  case quoted =>
    obtain ⟨b, hb, rfl⟩ := ht
    by_cases h : q = '"'
    · exact .inr ⟨b, by rw [h], h ▸ hb⟩
    · exact .inl (by simpa [Stops] using h)
  case word => exact .inl (by simpa [Stops] using hname)
  case number =>
    refine .inl ⟨by simpa using hdigit, .inr ?_⟩
    rintro d r ⟨⟩
    cases hq
  case less => exact .inl ⟨hne rfl, hne rfl⟩
  case equals | greater => exact .inl (hne rfl)
  case other => exact .inl fun _ => hne rfl
  all_goals exact .inl trivial

/-- A token that ends before a text ends before what goes on from it, unless with a digit. -/
theorem Stops.append_right {t : Token} {a rest : Text} (h : t.Stops a) (ha : a ≠ [])
    (hrest : rest.head?.any Char.isDigit = false) : t.Stops (a ++ rest) := by
  obtain ⟨c, a, rfl⟩ := List.exists_cons_of_ne_nil ha
  obtain ⟨kind, text⟩ := t
  cases kind
  case number =>
    refine ⟨h.1, h.2.imp_right fun hd d r he => ?_⟩
    obtain ⟨rfl, htail⟩ := List.cons.inj he
    cases a with
    | nil =>
      have hdigit : rest = d :: r := htail
      simpa [hdigit] using hrest
    | cons b a =>
      obtain rfl : b = d := (List.cons.inj htail).1
      exact hd b a rfl
  all_goals exact h

end Token

theorem step_eq_unclosed_iff {s gap : Text} :
    step s = .unclosed gap ↔
      ∃ q rest, s = gap ++ q :: rest ∧ IsGap gap ∧ isQuote q = true ∧ Paired q rest := by
  constructor
  · intro h
    have hs := List.takeWhile_append_dropWhile (p := isGapChar) (l := s)
    unfold step at h
    split at h
    · cases h
    · next c r hd =>
      split at h
      · next hr =>
        cases h
        rw [hd] at hs
        exact ⟨c, r, hs.symm, holds_of_mem_takeWhile, read?_eq_none_iff.mp hr⟩
      · cases h
  · rintro ⟨q, rest, rfl, hg, hq, hp⟩
    have hgap : isGapChar q = false := not_of_isQuote hq rfl rfl
    obtain ⟨htake, hdrop⟩ := run_append (r := q :: rest) hg (by simpa using hgap)
    simp [step, htake, hdrop, read?_eq_none_iff.mpr ⟨hq, hp⟩]

theorem scan_of_unclosed {s gap : Text} (h : step s = .unclosed gap) :
    scan s = .error ⟨Text.size gap⟩ := by
  rw [scan]
  split
  · next hs => rw [hs] at h; cases h
  · next hs =>
    rw [hs] at h
    cases h
    rfl
  · next hs => rw [hs] at h; cases h

theorem exists_tokenize_eq_ok_iff {s : Text} :
    (∃ ps, tokenize s = .ok ps) ↔ ∃ found, scan s = .ok found := by
  rw [tokenize]
  cases scan s <;> simp [Except.map]

theorem tokenize_eq_error_iff {s : Text} {e : Unclosed} :
    tokenize s = .error e ↔ scan s = .error e := by
  rw [tokenize]
  cases scan s <;> simp [Except.map]

/-- A quote that nothing closes opens at the offset `n` of `s`, and what stands before it can be
read. -/
def OpensAt (s : Text) (n : Nat) : Prop :=
  ∃ before q rest, s = before ++ q :: rest ∧ Text.size before = n ∧
    (∃ ps, tokenize before = .ok ps) ∧ isQuote q = true ∧ EvenRuns q rest

/-- The scan stops at a quote that nothing closes, behind lexemes that end there. -/
theorem opensAt_of_scan {s : Text} {e : Unclosed} (h : scan s = .error e) : OpensAt s e.offset := by
  suffices hs : ∃ ls gap q rest, s = ls.flatMap Lexeme.text ++ (gap ++ q :: rest) ∧
      Text.size (ls.flatMap Lexeme.text ++ gap) = e.offset ∧ Fit ls (gap ++ q :: rest) ∧
      IsGap gap ∧ isQuote q = true ∧ Paired q rest by
    obtain ⟨ls, gap, q, rest, hs, hsize, hfit, hg, hq, hp⟩ := hs
    have hbreaks : Breaks gap := by simpa using hg.breaks_append breaks_nil
    refine ⟨ls.flatMap Lexeme.text ++ gap, q, rest, by simpa using hs, hsize, ?_, hq,
      paired_iff_evenRuns.mp hp⟩
    exact exists_tokenize_eq_ok_iff.mpr
      ⟨⟨ls, gap⟩, scan_eq_ok_iff.mpr ⟨rfl, hfit.before_break hbreaks, hg⟩⟩
  fun_induction scan s generalizing e with
  | case1 => cases h
  | case2 s gap hs =>
    cases h
    obtain ⟨q, rest, rfl, hg, hq, hp⟩ := step_eq_unclosed_iff.mp hs
    exact ⟨[], gap, q, rest, rfl, rfl, trivial, hg, hq, hp⟩
  | case3 => cases h
  | case4 s l rest hs e' he ih =>
    cases h
    obtain ⟨ls, gap, q, rest', rfl, hsize, hfit, hg, hq, hp⟩ := ih he
    obtain ⟨hlg, hform, hstops⟩ := fit_of_step hs
    refine ⟨l :: ls, gap, q, rest', ?_, ?_, ⟨hlg, hform, hstops, hfit⟩, hg, hq, hp⟩
    · rw [(step_lexeme hs).1]
      simp
    · rw [← hsize]
      simp

/-- Where a quote that nothing closes opens, the scan stops there or before. -/
theorem scan_of_opensAt {s : Text} {n : Nat} (h : OpensAt s n) :
    ∃ e, scan s = .error e ∧ e.offset ≤ n := by
  obtain ⟨before, q, rest, rfl, rfl, hread, hq, heven⟩ := h
  have hp := paired_iff_evenRuns.mpr heven
  obtain ⟨⟨ls, tail⟩, hscan⟩ := exists_tokenize_eq_ok_iff.mp hread
  obtain ⟨rfl, hfit, htail⟩ := scan_eq_ok_iff.mp hscan
  clear hread hscan
  have hdigit : q.isDigit = false := not_of_isQuote hq rfl rfl
  induction ls with
  | nil =>
    have hstep := step_eq_unclosed_iff.mpr ⟨q, rest, rfl, htail, hq, hp⟩
    exact ⟨_, by simpa [Scan.text] using scan_of_unclosed hstep, by simp [Scan.text]⟩
  | cons l ls ih =>
    obtain ⟨hg, hform, hstops, hfit⟩ := hfit
    have hlexeme (hs : l.token.Stops (Scan.text ⟨ls, tail⟩ ++ q :: rest)) :
        ∃ e, scan (Scan.text ⟨l :: ls, tail⟩ ++ q :: rest) = .error e ∧
          e.offset ≤ Text.size (Scan.text ⟨l :: ls, tail⟩) := by
      obtain ⟨e, he, hle⟩ := ih hfit htail
      have htext : Scan.text ⟨l :: ls, tail⟩ = l.text ++ Scan.text ⟨ls, tail⟩ :=
        Scan.text_cons l ⟨ls, tail⟩
      refine ⟨⟨Text.size l.text + e.offset⟩, ?_, ?_⟩
      · rw [htext, List.append_assoc, scan_of_lexeme (step_append hg hform hs), he]
      · rw [htext, Text.size_append]
        exact Nat.add_le_add_left hle _
    by_cases hn : Scan.text ⟨ls, tail⟩ = []
    · rcases hform.stops_quote hq rest with hs | ⟨b, hb, hpb⟩
      · exact hlexeme (by simpa [hn] using hs)
      · -- the quote before ends a token of the same quote, which goes on and is not closed
        have htext : Scan.text ⟨l :: ls, tail⟩ = l.gap ++ (q :: b ++ [q]) := by
          have hcons := Scan.text_cons l ⟨ls, tail⟩
          rw [hn, List.append_nil, Lexeme.text, hb] at hcons
          exact hcons
        have hstep : step (Scan.text ⟨l :: ls, tail⟩ ++ q :: rest) = .unclosed l.gap :=
          step_eq_unclosed_iff.mpr
            ⟨q, b ++ q :: q :: rest, by simp [htext], hg, hq, hpb.append (.pair hp)⟩
        exact ⟨_, scan_of_unclosed hstep, by simp [htext]⟩
    · exact hlexeme (hstops.append_right hn (by simpa using hdigit))

/-- The first pass reads the rule as it was given. -/
theorem translate_of_unclosed {b : Bindings} {s : Text} {e : Unclosed}
    (hs : checkSupported s = .ok ()) (hb : checkBound b s = .ok ()) (h : tokenize s = .error e) :
    translate b s = .error (.malformed e) := by
  have hdrop := dropQualifiers_eq_error_iff.mpr h
  simp [translate, hs, hb, bind, Except.bind, Pass.all, Pass.runAll, Pass.scanning, hdrop,
    Except.mapError]

/-- A text cannot be read exactly if it opens a quote that nothing closes behind a front that can
be read, and the refusal has the first place where it does. It is the place in the rule itself that
a translation past the gates reports. -/
theorem tokenize_unclosed_iff (s : Text) :
    ((∃ ps, tokenize s = .ok ps) ↔ ¬∃ n, OpensAt s n) ∧
    (∀ e, tokenize s = .error e ↔ OpensAt s e.offset ∧ ∀ n, OpensAt s n → e.offset ≤ n) ∧
    ∀ b e, checkSupported s = .ok () → checkBound b s = .ok () → tokenize s = .error e →
      translate b s = .error (.malformed e) := by
  refine ⟨⟨?_, ?_⟩, fun e => ⟨?_, ?_⟩, fun b e => translate_of_unclosed⟩
  · rintro ⟨ps, hps⟩ ⟨n, hn⟩
    obtain ⟨e, he, -⟩ := scan_of_opensAt hn
    rw [tokenize_eq_error_iff.mpr he] at hps
    cases hps
  · intro hnone
    cases hs : tokenize s with
    | ok ps => exact ⟨ps, rfl⟩
    | error e => exact absurd ⟨_, opensAt_of_scan (tokenize_eq_error_iff.mp hs)⟩ hnone
  · intro h
    have hscan := tokenize_eq_error_iff.mp h
    refine ⟨opensAt_of_scan hscan, fun n hn => ?_⟩
    obtain ⟨e', he', hle⟩ := scan_of_opensAt hn
    rw [hscan] at he'
    cases he'
    exact hle
  · rintro ⟨hopens, hleast⟩
    obtain ⟨e', he', hle⟩ := scan_of_opensAt hopens
    have hge := hleast _ (opensAt_of_scan he')
    have he : e = e' := congrArg Unclosed.mk (Nat.le_antisymm hge hle)
    rw [he]
    exact tokenize_eq_error_iff.mpr he'

/-- Neither the doubled quote nor the double quote closes the literal. -/
theorem tokenize_unclosed_iff_doubled :
    tokenize "A='it''s \"".toList = .error ⟨2⟩ ∧ OpensAt "A='it''s \"".toList 2 ∧
      translate Keyed.empty "A='it''s \"".toList = .error (.malformed ⟨2⟩) := by
  have h : tokenize "A='it''s \"".toList = .error ⟨2⟩ := by cbv
  obtain ⟨-, herror, htranslate⟩ := tokenize_unclosed_iff "A='it''s \"".toList
  exact ⟨h, ((herror _).mp h).1, htranslate Keyed.empty _ (by cbv) (by cbv) h⟩

end WhereFilter
