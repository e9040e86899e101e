import WhereFilter.Proofs.Bytewise.Slice
import WhereFilter.Proofs.Token.Front
import WhereFilter.Proofs.Token.Longest
import WhereFilter.Proofs.Token.Unclosed

namespace WhereFilter

open Text (size)

/-- The same token in a text that starts `n` bytes earlier. -/
def Placed.shift (n : Nat) (p : Placed) : Placed :=
  ⟨p.token, n + p.start, n + p.stop⟩

/-- What is read of a text, seen from `n` bytes before it. -/
def shifted (n : Nat) : Except Unclosed (List Placed) → Except Unclosed (List Placed)
  | .ok ps => .ok (ps.map (Placed.shift n))
  | .error e => .error ⟨n + e.offset⟩

@[simp] theorem shifted_ok (n : Nat) (ps : List Placed) :
    shifted n (.ok ps) = .ok (ps.map (Placed.shift n)) := rfl

@[simp] theorem shifted_error (n : Nat) (e : Unclosed) :
    shifted n (.error e) = .error ⟨n + e.offset⟩ := rfl

theorem shift_zero : Placed.shift 0 = id := by
  funext p
  simp [Placed.shift]

theorem shift_comp (m n : Nat) : Placed.shift m ∘ Placed.shift n = Placed.shift (m + n) := by
  funext p
  simp [Placed.shift, Nat.add_assoc]

theorem place_cons (offset : Nat) (l : Lexeme) (ls : List Lexeme) :
    place offset (l :: ls) =
      ⟨l.token, offset + size l.gap, offset + size l.text⟩ :: place (offset + size l.text) ls := by
  simp [place, Lexeme.text, Nat.add_assoc]

theorem place_shift (n offset : Nat) (ls : List Lexeme) :
    place (n + offset) ls = (place offset ls).map (Placed.shift n) := by
  induction ls generalizing offset with
  | nil => rfl
  | cons l ls ih => simp only [place, List.map_cons, Placed.shift, ← ih, Nat.add_assoc]

/-! What stands in front of a text -/

/-- The same with the gap `g` in front. -/
def Step.behind (g : Text) : Step → Step
  | .done gap => .done (g ++ gap)
  | .unclosed gap => .unclosed (g ++ gap)
  | .lexeme l rest => .lexeme { l with gap := g ++ l.gap } rest

theorem step_behind {g : Text} (hg : IsGap g) (s : Text) : step (g ++ s) = (step s).behind g := by
  unfold step
  rw [List.takeWhile_append_of_pos hg, List.dropWhile_append_of_pos hg]
  cases s.dropWhile Token.isGapChar with
  | nil => rfl
  | cons c r =>
    dsimp only
    cases Token.read? c r <;> rfl

theorem tokenize_of_done {s gap : Text} (h : step s = .done gap) : tokenize s = .ok [] := by
  rw [tokenize, scan_of_done h]
  rfl

theorem tokenize_of_unclosed {s gap : Text} (h : step s = .unclosed gap) :
    tokenize s = .error ⟨size gap⟩ :=
  tokenize_eq_error_iff.mpr (scan_of_unclosed h)

theorem tokenize_of_lexeme {s rest : Text} {l : Lexeme} (h : step s = .lexeme l rest) :
    tokenize s = (shifted (size l.text) (tokenize rest)).map
      (⟨l.token, size l.gap, size l.text⟩ :: ·) := by
  rw [tokenize, scan_of_lexeme h, tokenize]
  cases scan rest with
  | error e => rfl
  | ok found =>
    have hshift := place_shift (size l.text) 0 found.lexemes
    simpa [Except.map, Scan.cons, place_cons] using hshift

/-- White space in front of a text moves its tokens and nothing else. -/
theorem tokenize_gap_append {g : Text} (hg : IsGap g) (s : Text) :
    tokenize (g ++ s) = shifted (size g) (tokenize s) := by
  have hstep := step_behind hg s
  cases hs : step s with
  | done gap =>
    rw [hs] at hstep
    rw [tokenize_of_done hs, tokenize_of_done hstep]
    rfl
  | unclosed gap =>
    rw [hs] at hstep
    rw [tokenize_of_unclosed hs, tokenize_of_unclosed hstep, Text.size_append]
    rfl
  | lexeme l rest =>
    rw [hs] at hstep
    rw [tokenize_of_lexeme hs, tokenize_of_lexeme hstep]
    cases tokenize rest with
    | error e => simp [Except.map, Lexeme.text, Nat.add_assoc]
    | ok ps => simp [Except.map, Placed.shift, Lexeme.text, Nat.add_assoc]

/-- Tokens that end where they do in front of a text are read first. -/
theorem tokenize_lexemes_append {ls : List Lexeme} {s : Text} (h : Fit ls s) :
    tokenize (ls.flatMap Lexeme.text ++ s) =
      (shifted (size (ls.flatMap Lexeme.text)) (tokenize s)).map (place 0 ls ++ ·) := by
  induction ls with
  | nil => cases htokens : tokenize s <;> simp [htokens, Except.map, place, shift_zero]
  | cons l ls ih =>
    obtain ⟨hg, hf, hs, hfit⟩ := h
    have hplace : place (size l.text) ls = (place 0 ls).map (Placed.shift (size l.text)) :=
      place_shift (size l.text) 0 ls
    rw [List.flatMap_cons, List.append_assoc, tokenize_of_lexeme (step_append hg hf hs), ih hfit]
    cases tokenize s with
    | error e => simp [Except.map, Nat.add_assoc]
    | ok ps => simp [Except.map, place_cons, hplace, shift_comp]

/-- A text reads as the lexemes that it is written from. -/
theorem tokenize_lexemes {ls : List Lexeme} {tail : Text} (h : Fit ls tail) (ht : IsGap tail) :
    tokenize (ls.flatMap Lexeme.text ++ tail) = .ok (place 0 ls) := by
  have hscan : scan (ls.flatMap Lexeme.text ++ tail) = .ok ⟨ls, tail⟩ :=
    scan_eq_ok_iff.mpr ⟨rfl, h, ht⟩
  rw [tokenize, hscan]
  rfl

theorem of_tokenize {s : Text} {ps : List Placed} (h : tokenize s = .ok ps) :
    ∃ ls tail, s = ls.flatMap Lexeme.text ++ tail ∧ Fit ls tail ∧ IsGap tail ∧ ps = place 0 ls := by
  rw [tokenize] at h
  cases hs : scan s with
  | error e =>
    rw [hs] at h
    cases h
  | ok found =>
    rw [hs] at h
    obtain ⟨htext, hfit, htail⟩ := scan_eq_ok_iff.mp hs
    exact ⟨found.lexemes, found.tail, htext.symm, hfit, htail, (Except.ok.inj h).symm⟩

/-! The rest of a text -/

theorem place_append (offset : Nat) (xs ys : List Lexeme) :
    place offset (xs ++ ys) =
      place offset xs ++ place (offset + size (xs.flatMap Lexeme.text)) ys := by
  induction xs generalizing offset with
  | nil => simp [place]
  | cons x xs ih => simp [place_cons, ih, Nat.add_assoc]

theorem exists_of_mem_place {offset : Nat} {ls : List Lexeme} {p : Placed}
    (h : p ∈ place offset ls) : ∃ front l back, ls = front ++ l :: back ∧
      p.start = offset + size (front.flatMap Lexeme.text ++ l.gap) ∧
      p.stop = offset + size (front.flatMap Lexeme.text ++ l.text) := by
  induction ls generalizing offset with
  | nil => cases h
  | cons l ls ih =>
    rw [place_cons] at h
    rcases List.mem_cons.mp h with rfl | h
    · exact ⟨[], l, ls, rfl, rfl, rfl⟩
    · obtain ⟨front, m, back, rfl, hstart, hstop⟩ := ih h
      exact ⟨l :: front, m, back, rfl, by simp [hstart, Nat.add_assoc], by simp [hstop, Nat.add_assoc]⟩

theorem start_lt_of_mem_place {offset : Nat} {ls : List Lexeme} {rest : Text} (hfit : Fit ls rest)
    {p : Placed} (h : p ∈ place offset ls) :
    p.start < offset + size (ls.flatMap Lexeme.text) := by
  obtain ⟨front, l, back, rfl, hstart, -⟩ := exists_of_mem_place h
  obtain ⟨c, r, hc, -⟩ := (hfit.formed_of_mem (l := l) (by simp)).head
  have hpos := c.utf8Size_pos
  simp only [hstart, List.flatMap_append, List.flatMap_cons, Lexeme.text, hc, Text.size_append,
    Text.size_cons]
  omega

/-- An offset behind the first lexemes and up to the next token parts their tokens. -/
theorem filter_place {front back : List Lexeme} {rest : Text} {n : Nat} (hfit : Fit front rest)
    (hn : size (front.flatMap Lexeme.text) ≤ n)
    (hback : ∀ q ∈ place (size (front.flatMap Lexeme.text)) back, n ≤ q.start) :
    (place 0 (front ++ back)).filter (n ≤ ·.start) =
      place (size (front.flatMap Lexeme.text)) back := by
  have hbefore : (place 0 front).filter (n ≤ ·.start) = [] := by
    refine List.filter_eq_nil_iff.mpr fun p hp => ?_
    have := start_lt_of_mem_place hfit hp
    simp only [decide_eq_true_eq]
    omega
  have hbehind : (place (size (front.flatMap Lexeme.text)) back).filter (n ≤ ·.start) =
      place (size (front.flatMap Lexeme.text)) back := by
    refine List.filter_eq_self.mpr fun q hq => ?_
    simpa using hback q hq
  rw [place_append, Nat.zero_add, List.filter_append, hbefore, hbehind, List.nil_append]

/-- What is read from the end of a token on. -/
theorem tokenize_behind {front back : List Lexeme} {tail : Text} (hfit : Fit (front ++ back) tail)
    (ht : IsGap tail) :
    ∃ qs, tokenize (back.flatMap Lexeme.text ++ tail) = .ok qs ∧
      qs.map (.shift (size (front.flatMap Lexeme.text))) =
        (place 0 (front ++ back)).filter (size (front.flatMap Lexeme.text) ≤ ·.start) := by
  obtain ⟨hfront, hback⟩ := fit_append.mp hfit
  refine ⟨place 0 back, tokenize_lexemes hback ht, ?_⟩
  rw [filter_place hfront (Nat.le_refl _) fun q hq => (offset_le_of_mem_place hq).1]
  exact (place_shift _ 0 back).symm

/-- What is read from the start of a token on. -/
theorem tokenize_at {front back : List Lexeme} {l : Lexeme} {tail : Text}
    (hfit : Fit (front ++ l :: back) tail) (ht : IsGap tail) :
    ∃ qs, tokenize (l.token.text ++ (back.flatMap Lexeme.text ++ tail)) = .ok qs ∧
      qs.map (.shift (size (front.flatMap Lexeme.text ++ l.gap))) =
        (place 0 (front ++ l :: back)).filter
          (size (front.flatMap Lexeme.text ++ l.gap) ≤ ·.start) := by
  obtain ⟨hfront, hback⟩ := fit_append.mp hfit
  have hread := tokenize_lexemes (hback.with_gap isGap_nil) ht
  refine ⟨_, by simpa [Lexeme.text] using hread, ?_⟩
  rw [filter_place hfront (by simp) ?_]
  · rw [← place_shift]
    simp [place, Nat.add_assoc]
  · intro q hq
    rw [place_cons] at hq
    rcases List.mem_cons.mp hq with rfl | hq
    · simp
    · have hle := (offset_le_of_mem_place hq).1
      simp only [Lexeme.text, Text.size_append] at hle ⊢
      omega

/-- What is read of a text is read of it anywhere: in front of white space and whatever follows
that, and from the start and the end of each token on. -/
theorem tokenize_local {s : Text} {ps : List Placed} (h : tokenize s = .ok ps) :
    (∀ w t, IsGap w → w ≠ [] → tokenize (s ++ (w ++ t)) =
      match tokenize t with
      | .ok qs => .ok (ps ++ qs.map (.shift (size (s ++ w))))
      | .error e => .error ⟨size (s ++ w) + e.offset⟩) ∧
    ∀ p ∈ ps, ∀ n, n = p.start ∨ n = p.stop →
      ∃ rest qs, s.dropBytes? n = some rest ∧ tokenize rest = .ok qs ∧
        qs.map (.shift n) = ps.filter (n ≤ ·.start) := by
  obtain ⟨ls, tail, rfl, hfit, htail, rfl⟩ := of_tokenize h
  constructor
  · intro w t hw hne
    have hbreaks : Breaks (tail ++ (w ++ t)) := by
      obtain ⟨c, w, rfl⟩ := List.exists_cons_of_ne_nil hne
      exact htail.breaks_append (breaks_cons.mpr (isBreak_of_isGapChar (hw c (by simp))))
    have hgap := tokenize_gap_append (htail.append hw) t
    rw [List.append_assoc] at hgap
    rw [List.append_assoc, tokenize_lexemes_append (hfit.before_break hbreaks), hgap]
    cases tokenize t with
    | error e => simp [Except.map, Nat.add_assoc]
    | ok qs => simp [Except.map, shift_comp]
  · intro p hp n hn
    obtain ⟨front, l, back, rfl, hstart, hstop⟩ := exists_of_mem_place hp
    rw [Nat.zero_add] at hstart hstop
    rcases hn with rfl | rfl
    · rw [hstart]
      have hdrop := Text.dropBytes?_size (front.flatMap Lexeme.text ++ l.gap)
        (l.token.text ++ (back.flatMap Lexeme.text ++ tail))
      obtain ⟨qs, hqs, hrest⟩ := tokenize_at hfit htail
      exact ⟨_, qs, by simpa [Lexeme.text] using hdrop, hqs, hrest⟩
    · rw [hstop]
      have hdrop := Text.dropBytes?_size (front.flatMap Lexeme.text ++ l.text)
        (back.flatMap Lexeme.text ++ tail)
      have hmore : Fit ((front ++ [l]) ++ back) tail := by simpa using hfit
      obtain ⟨qs, hqs, hrest⟩ := tokenize_behind hmore htail
      exact ⟨_, qs, by simpa using hdrop, hqs, by simpa using hrest⟩

/-- A point at the end is not taken into a number with the digit behind the blank, and the quote
that opens there is found where it stands in the whole. -/
theorem tokenize_local_point :
    tokenize "A=1.".toList = .ok [⟨⟨.word, ['A']⟩, 0, 1⟩, ⟨⟨.equals, ['=']⟩, 1, 2⟩,
      ⟨⟨.number, ['1']⟩, 2, 3⟩, ⟨⟨.dot, ['.']⟩, 3, 4⟩] ∧
    tokenize ("A=1.".toList ++ ([' '] ++ "5'".toList)) = .error ⟨6⟩ ∧
    ∃ rest qs, Text.dropBytes? 3 "A=1.".toList = some rest ∧ tokenize rest = .ok qs ∧
      qs.map (Placed.shift 3) = [⟨⟨.dot, ['.']⟩, 3, 4⟩] := by
  have h : tokenize "A=1.".toList = .ok [⟨⟨.word, ['A']⟩, 0, 1⟩, ⟨⟨.equals, ['=']⟩, 1, 2⟩,
      ⟨⟨.number, ['1']⟩, 2, 3⟩, ⟨⟨.dot, ['.']⟩, 3, 4⟩] := by decide +kernel
  obtain ⟨happend, hrest⟩ := tokenize_local h
  have hquote : tokenize "5'".toList = .error ⟨1⟩ := by decide +kernel
  refine ⟨h, ?_, ?_⟩
  · rw [happend [' '] "5'".toList isGap_space (by simp), hquote]
    rfl
  · exact hrest ⟨⟨.number, ['1']⟩, 2, 3⟩ (by simp) 3 (.inr rfl)

end WhereFilter
