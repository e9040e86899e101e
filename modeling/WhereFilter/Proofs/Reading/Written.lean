import WhereFilter.Proofs.Reading.Folded

namespace WhereFilter

/-- A word between two spaces is a lexeme of its own, and what follows keeps its lexemes. -/
theorem scan_spaced_word {w s : Text} {found : Scan} (hw : (⟨.word, w⟩ : Token).Formed)
    (h : scan s = .ok found) :
    ∃ c ls tail, scan (' ' :: w ++ ' ' :: s) = .ok ⟨c :: ls, tail⟩ ∧ c.token = ⟨.word, w⟩ ∧
      unindent ls = unindent found.lexemes := by
  obtain ⟨spaced, hspaced, hls⟩ := scan_gap_append isGap_space h
  have hword := scan_token_append hw (.of_breaks (breaks_cons.mpr rfl)) hspaced
  obtain ⟨⟨_, tail⟩, hk, hfront⟩ := scan_gap_append isGap_space hword
  obtain ⟨c, rfl, hc⟩ := unindent_eq_cons hfront
  exact ⟨c, spaced.lexemes, tail, hk, hc, hls⟩

namespace Reading

/-- What a reading is written with does not depend on the gap before it. -/
theorem Writes.of_unindent {r : Reading} {ls ms : List Lexeme} (h : Writes unindent r ls)
    (hm : unindent ms = unindent ls) : Writes unindent r ms := by
  induction h generalizing ms with
  | atom h => exact .atom (hm.trans h)
  | marker h => exact .marker ((tokens_of_unindent hm).trans h)
  | group ho h hc _ =>
    obtain ⟨o, rfl, ho'⟩ := unindent_eq_cons hm
    exact .group (ho'.trans ho) h hc
  | either hl hc hr ih _ =>
    obtain ⟨xs, rest, rfl, hx, hrest⟩ := unindent_eq_append hm
    obtain ⟨c, rfl, hc'⟩ := unindent_eq_cons hrest
    exact .either (ih hx) (hc'.trans hc) hr
  | both hl hc hr ih _ =>
    obtain ⟨xs, rest, rfl, hx, hrest⟩ := unindent_eq_append hm
    obtain ⟨c, rfl, hc'⟩ := unindent_eq_cons hrest
    exact .both (ih hx) (hc'.trans hc) hr

theorem Writes.tokens {r : Reading} {ls : List Lexeme} (h : Writes unindent r ls) :
    ls.map Lexeme.token = r.tokens := by
  induction h with
  | atom h => exact tokens_of_unindent h
  | marker h => exact h
  | group ho _ hc ih => simp [Reading.tokens, ho, ih, hc]
  | either _ hc _ ihl ihr => simp [Reading.tokens, ihl, hc, ihr]
  | both _ hc _ ihl ihr => simp [Reading.tokens, ihl, hc, ihr]

theorem writes_marker (holds : Bool) :
    ∃ found, scan (marker holds).text = .ok found ∧
      Writes unindent (.marker holds) found.lexemes := by
  have hdigit {d : Char} (hd : d.isDigit = true) : (⟨.number, [d]⟩ : Token).Formed :=
    .whole (by simp) (by simpa using hd)
  have heq : (⟨.word, "eq".toList⟩ : Token).Formed :=
    ⟨'e', ['q'], rfl, rfl, List.all_eq_true.mp rfl⟩
  have hmarker {d : Char} (hd : d.isDigit = true) :
      ∃ found, scan ('1' :: (' ' :: "eq".toList ++ [' ', d])) = .ok found ∧
        found.tokens = [⟨.number, ['1']⟩, ⟨.word, "eq".toList⟩, ⟨.number, [d]⟩] := by
    have hlast := scan_token_append (hdigit hd) (.of_breaks breaks_nil) scan_nil
    obtain ⟨c, ls, tail, hk, hc, hls⟩ := scan_spaced_word heq hlast
    refine ⟨_, scan_token_append (hdigit (d := '1') rfl) (.of_breaks rfl) hk, ?_⟩
    simp [Scan.tokens, Scan.cons, hc, tokens_of_unindent hls]
  cases holds
  · obtain ⟨found, hk, htokens⟩ := hmarker (d := '0') rfl
    exact ⟨found, hk, .marker htokens⟩
  · obtain ⟨found, hk, htokens⟩ := hmarker (d := '1') rfl
    exact ⟨found, hk, .marker htokens⟩

/-- The text of a reading is scanned as lexemes that write the reading. -/
theorem writes_text {r : Reading} (h : ∀ a ∈ r.atoms, ∃ rest, Fit a rest) :
    ∃ found, scan r.text = .ok found ∧ Writes unindent r found.lexemes := by
  -- two readings with a word between them
  have joined {l r : Reading} {w : Text} (hw : (⟨.word, w⟩ : Token).Formed)
      (ihl : ∃ found, scan l.text = .ok found ∧ Writes unindent l found.lexemes)
      (ihr : ∃ found, scan r.text = .ok found ∧ Writes unindent r found.lexemes) :
      ∃ xs c ys tail, scan (l.text ++ (' ' :: w ++ ' ' :: r.text)) = .ok ⟨xs ++ c :: ys, tail⟩ ∧
        Writes unindent l xs ∧ c.token = ⟨.word, w⟩ ∧ Writes unindent r ys := by
    obtain ⟨left, hleft, hl⟩ := ihl
    obtain ⟨right, hright, hr⟩ := ihr
    obtain ⟨c, ls, tail, hk, hc, hls⟩ := scan_spaced_word hw hright
    obtain ⟨rest, tail', hk', hrest⟩ := scan_append hleft hk rfl
    obtain ⟨c', rfl, hc'⟩ := unindent_eq_cons hrest
    exact ⟨left.lexemes, c', ls, tail', hk', hl, hc'.trans hc, hr.of_unindent hls⟩
  induction r with
  | atom ls =>
    obtain ⟨rest, hf⟩ := h ls (by simp [atoms])
    refine ⟨_, scan_slice hf, .atom ?_⟩
    cases ls <;> rfl
  | marker holds => exact writes_marker holds
  | group r ih =>
    obtain ⟨inner, hinner, hr⟩ := ih h
    have hclose := scan_token_append (t := ⟨.parenRight, [')']⟩)
      (by simp [Token.Formed, Token.signs]) trivial scan_nil
    obtain ⟨rest, tail, hk, hrest⟩ := scan_append hinner hclose rfl
    obtain ⟨c, rfl, hc⟩ := unindent_eq_cons hrest
    have hopen := scan_token_append (t := ⟨.parenLeft, ['(']⟩)
      (by simp [Token.Formed, Token.signs]) trivial hk
    exact ⟨_, hopen, .group (o := ⟨[], ⟨.parenLeft, ['(']⟩⟩) rfl hr hc⟩
  | either l r ihl ihr =>
    have hl := ihl fun a ha => h a (List.mem_append_left _ ha)
    have hr := ihr fun a ha => h a (List.mem_append_right _ ha)
    obtain ⟨xs, c, ys, tail, hk, hx, hc, hy⟩ :=
      joined (w := "or".toList) ⟨'o', ['r'], rfl, rfl, List.all_eq_true.mp rfl⟩ hl hr
    rw [text, List.append_assoc]
    exact ⟨_, hk, .either hx hc hy⟩
  | both l r ihl ihr =>
    have hl := ihl fun a ha => h a (List.mem_append_left _ ha)
    have hr := ihr fun a ha => h a (List.mem_append_right _ ha)
    obtain ⟨xs, c, ys, tail, hk, hx, hc, hy⟩ :=
      joined (w := "and".toList) ⟨'a', ['n', 'd'], rfl, rfl, List.all_eq_true.mp rfl⟩ hl hr
    rw [text, List.append_assoc]
    exact ⟨_, hk, .both hx hc hy⟩

/-- A reading's text has the reading's tokens. -/
theorem tokensOf_text {r : Reading} (h : ∀ a ∈ r.atoms, ∃ rest, Fit a rest) :
    tokensOf r.text = .ok r.tokens := by
  obtain ⟨found, hk, hw⟩ := writes_text h
  exact tokensOf_eq_ok_iff_scan.mpr ⟨found, hk, hw.tokens⟩

end Reading

end WhereFilter
