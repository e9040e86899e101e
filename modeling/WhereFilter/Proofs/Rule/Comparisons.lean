import WhereFilter.Proofs.Layout.Patterns
import WhereFilter.Proofs.Rule.Operands
import WhereFilter.Proofs.Token.Echoes

namespace WhereFilter

open WhereFilter.Language (letterText literal?_eq_some isBlank_of_isGapChar quote_not_mem_gap
  comparison_letters formed_literal isWordChar_of_isNameChar)

namespace YesNo

def sign : Token := ⟨.equals, ['=']⟩

/-- A digit that stands for a truth value. -/
def digit (holds : Bool) : Token :=
  ⟨.number, if holds then ['1'] else ['0']⟩

/-- Reads two letters with an equals sign between; the hit is the gap before them and whether they
agree. -/
def triple : Pattern Lexeme (Text × Bool) := fun _ ls =>
  match ls with
  | a :: e :: b :: rest =>
    if a.token ∈ [letter true, letter false] ∧ e.token = sign ∧
        b.token ∈ [letter true, letter false] then
      some ((a.gap, a.token == b.token), rest)
    else none
  | _ => none

/-- The marker `1=1` or `1=0`. -/
def marker (gap : Text) (agree : Bool) : List Lexeme :=
  [⟨gap, digit true⟩, ⟨[], sign⟩, ⟨[], digit agree⟩]

/-- The lexemes with a marker in place of each triple. -/
def folded (ls : List Lexeme) : List Lexeme :=
  triple.replace (fun (gap, agree) => marker gap agree) ls

theorem forward_triple : triple.Forward := fun _ _ => rfl

theorem forward_comparison : comparison.Forward := fun _ _ => rfl

theorem triple_eq_some {back : Option Lexeme} {ls rest : List Lexeme} {gap : Text} {agree : Bool} :
    triple back ls = some ((gap, agree), rest) ↔ ∃ a e b x y, ls = a :: e :: b :: rest ∧
      a.token = letter x ∧ e.token = sign ∧ b.token = letter y ∧ gap = a.gap ∧
      agree = (x == y) := by
  constructor
  · intro h
    unfold triple at h
    split at h
    · next a e b rest' =>
      split at h
      · next htokens =>
        cases h
        simp only [List.mem_cons, List.not_mem_nil, or_false] at htokens
        obtain ⟨ha, he, hb⟩ := htokens
        rcases ha with ha | ha <;> rcases hb with hb | hb <;>
          exact ⟨a, e, b, _, _, rfl, ha, he, hb, rfl, by rw [ha, hb]; rfl⟩
      · cases h
    · cases h
  · rintro ⟨a, e, b, x, y, rfl, ha, he, hb, rfl, rfl⟩
    cases x <;> cases y <;> simp [triple, ha, he, hb] <;> decide

theorem advances_triple : triple.Advances := by
  rintro back ls ⟨gap, agree⟩ rest h
  obtain ⟨a, e, b, x, y, rfl, -⟩ := triple_eq_some.mp h
  exact ⟨[a, e, b], by simp, rfl⟩

theorem advances_comparison : comparison.Advances :=
  steady_comparison.advances

/-- What is written for a hit. -/
theorem flatMap_marker (gap : Text) (agree : Bool) : (marker gap agree).flatMap Lexeme.text =
    gap ++ if agree then "1=1".toList else "1=0".toList := by
  cases agree <;> simp [marker, digit, sign, Lexeme.text]

theorem sign_formed : sign.Formed := by simp [Token.Formed, sign, Token.signs]

theorem digit_formed (holds : Bool) : (digit holds).Formed := by
  cases holds <;> exact .whole (by simp [digit]) (by simp [digit])

/-- What is taken for a comparison of two letters, and whether they agree. -/
def Compares (w : Text) (agree : Bool) : Prop :=
  ∃ x y b₁ b₂, w = '\'' :: letterText x ++ '\'' :: (b₁ ++ '=' :: (b₂ ++
    ('\'' :: letterText y ++ ['\'']))) ∧ (∀ c ∈ b₁, isBlank c = true) ∧
      (∀ c ∈ b₂, isBlank c = true) ∧ agree = (x == y)

theorem compares_of_comparison {s rest : Text} {agree : Bool}
    (h : comparison none s = some (agree, rest)) : ∃ w, s = w ++ rest ∧ Compares w agree := by
  simp only [comparison, Option.bind_eq_bind, Option.bind_eq_some_iff, Prod.exists,
    Option.some.injEq, Prod.mk.injEq] at h
  obtain ⟨x, s₁, hx, s₂, h₂, y, s₃, hy, rfl, rfl⟩ := h
  rw [literal?_eq_some] at hx hy
  rw [Text.after?_eq_some] at h₂
  obtain ⟨b₁, hb₁, rfl⟩ := of_dropWhile h₂
  obtain ⟨b₂, hb₂, rfl⟩ := of_dropWhile hy
  exact ⟨_, by rw [hx]; simp, x, y, b₁, b₂, rfl, hb₁, hb₂, rfl⟩

theorem cuts_compares :
    Pattern.Cuts Compares fun agree => if agree then "1=1".toList else "1=0".toList where
  ends {w agree} h := by
    obtain ⟨x, y, b₁, b₂, rfl, -⟩ := h
    refine ⟨'\'' :: letterText x ++ '\'' :: (b₁ ++ '=' :: (b₂ ++ ('\'' :: letterText y))), '\'',
      ['1', '='], if agree then '1' else '0', by simp, ?_⟩
    cases agree <;> simp <;> decide
  unique {w agree w' agree' u u'} h h' hu := by
    obtain ⟨x, y, b₁, b₂, rfl, hb₁, hb₂, rfl⟩ := h
    obtain ⟨x', y', b₁', b₂', rfl, hb₁', hb₂', rfl⟩ := h'
    -- both are read from the end on
    have hread (u b₁ b₂ : Text) (x y : Bool) : u ++ ('\'' :: letterText x ++ '\'' :: (b₁ ++ '=' ::
        (b₂ ++ ('\'' :: letterText y ++ ['\''])))) = u ++ '\'' :: letterText x ++ ['\''] ++ b₁ ++
          ['='] ++ b₂ ++ '\'' :: letterText y ++ ['\''] := by simp
    have hletter {x y : Bool} (h : '\'' :: letterText x = '\'' :: letterText y) : x = y := by
      cases x <;> cases y <;> simp [letterText, Value.yesNoLetter] at h ⊢
    have hsign : isBlank '=' = false := rfl
    have hquote : isBlank '\'' = false := rfl
    rw [hread, hread] at hu
    obtain ⟨hu, hy⟩ := List.append_inj' (List.append_cancel_right hu) rfl
    obtain ⟨hu, -⟩ := run_inj_right (getLast?_concat_any hsign _) hb₂
      (getLast?_concat_any hsign _) hb₂' hu
    obtain ⟨hu, -⟩ := run_inj_right (getLast?_concat_any hquote _) hb₁
      (getLast?_concat_any hquote _) hb₁' (List.append_cancel_right hu)
    obtain ⟨hu, hx⟩ := List.append_inj' (List.append_cancel_right hu) rfl
    exact ⟨hu, by rw [hletter hx, hletter hy]⟩

theorem echoes_triple : Pattern.Echoes comparison
    (fun agree => if agree then "1=1".toList else "1=0".toList) triple
    (fun (gap, agree) => marker gap agree) Prod.fst Prod.snd where
  forward := forward_comparison
  advances := advances_comparison
  forward_tokens := forward_triple
  advances_tokens := advances_triple
  writes := fun (gap, agree) => flatMap_marker gap agree
  formed {ls b rest} h hls := by
    obtain ⟨gap, agree⟩ := b
    obtain ⟨a, e, b, x, y, rfl, -, -, -, rfl, -⟩ := triple_eq_some.mp h
    simp only [marker, List.forall_mem_cons, List.not_mem_nil, false_implies, implies_true,
      and_true]
    exact ⟨⟨(hls a (by simp)).1, digit_formed true⟩, ⟨isGap_nil, sign_formed⟩, isGap_nil,
      digit_formed _⟩
  calls := by
    refine ⟨Compares, cuts_compares, fun s d rest => compares_of_comparison, ?_⟩
    rintro front ⟨gap, agree⟩ rest h hfront
    obtain ⟨a, e, b, x, y, he, ha, hsign, hb, rfl, rfl⟩ := triple_eq_some.mp h
    obtain rfl : front = [a, e, b] := List.append_cancel_right he
    have hblank {l : Lexeme} (hl : l ∈ [a, e, b]) : ∀ c ∈ l.gap, isBlank c = true :=
      fun c hc => isBlank_of_isGapChar ((hfront l hl).1 c hc)
    refine ⟨_, ?_, x, y, e.gap, b.gap, rfl, hblank (by simp), hblank (by simp), rfl⟩
    simp [Lexeme.text, ha, hsign, hb, letter, sign]

/-! ### Values in literals -/

open Value (doubleQuotes)

theorem doubleQuotes_cons (c : Char) (v : Text) :
    doubleQuotes (c :: v) = (if c = '\'' then ['\'', '\''] else [c]) ++ doubleQuotes v := by
  simp [doubleQuotes]

/-- A hit that starts right before a doubled text has one letter there, and a sign behind it. -/
theorem of_comparison_doubled {back : Option Char} {v r : Text} {found : Bool × Text}
    (h : comparison back ('\'' :: (doubleQuotes v ++ '\'' :: r)) = some found) :
    ∃ x, v = letterText x ∧ (Text.skipBlanks r).head? = some '=' := by
  simp only [comparison, Option.bind_eq_bind, Option.bind_eq_some_iff, Prod.exists] at h
  obtain ⟨x, s, hx, s', hs', -⟩ := h
  have he : doubleQuotes v ++ '\'' :: r = Value.yesNoLetter x :: '\'' :: s :=
    (List.cons.inj (literal?_eq_some.mp hx)).2
  have hletter : '\'' ≠ Value.yesNoLetter x := by cases x <;> decide
  rw [Text.after?_eq_some] at hs'
  rcases v with _ | ⟨c, v⟩
  · exact absurd (List.cons.inj he).1 hletter
  · rw [doubleQuotes_cons] at he
    by_cases hc : c = '\''
    · rw [if_pos hc] at he
      exact absurd (List.cons.inj he).1 hletter
    · rw [if_neg hc, List.singleton_append, List.cons_append, List.cons.injEq] at he
      obtain ⟨rfl, he⟩ := he
      rcases v with _ | ⟨d, v⟩
      · refine ⟨x, rfl, ?_⟩
        rw [(List.cons.inj he).2, hs']
        rfl
      · rw [doubleQuotes_cons] at he
        by_cases hd : d = '\''
        · -- the letter stands in front of two quotes, the second of which is no sign
          rw [if_pos hd] at he
          rw [← (List.cons.inj he).2] at hs'
          cases hs'
        · rw [if_neg hd] at he
          exact absurd (List.cons.inj he).1 hd

theorem comparison_doubled {v r : Text}
    (h : ∀ x, v = letterText x → (Text.skipBlanks r).head? ≠ some '=') (back : Option Char) :
    comparison back ('\'' :: (doubleQuotes v ++ '\'' :: r)) = none := by
  refine Option.eq_none_iff_forall_ne_some.mpr fun found hhit => ?_
  obtain ⟨x, hx, hsign⟩ := of_comparison_doubled hhit
  exact h x hx hsign

theorem comparison_quotes (back : Option Char) (s : Text) :
    comparison back ('\'' :: '\'' :: s) = none := by
  refine comparison_doubled (v := []) (fun x hx => ?_) back
  cases x <;> cases hx

/-- No hit starts in a doubled text, unless its last letter stands behind a quote. -/
theorem still_doubled {v r : Text}
    (h : ∀ u x, v = u ++ '\'' :: letterText x → (Text.skipBlanks r).head? ≠ some '=') :
    comparison.Still (doubleQuotes v) ('\'' :: r) := by
  induction v with
  | nil => exact Pattern.still_nil
  | cons c v ih =>
    have hrest := ih fun u x hv => h (c :: u) x (by rw [hv]; rfl)
    rw [doubleQuotes_cons]
    by_cases hc : c = '\''
    · have hsecond (back : Option Char) :
          comparison back ('\'' :: (doubleQuotes v ++ '\'' :: r)) = none :=
        comparison_doubled (fun x hx => h [] x (by rw [hc, hx]; rfl)) back
      rw [if_pos hc]
      exact Pattern.still_cons.mpr ⟨fun back => comparison_quotes back _,
        Pattern.still_cons.mpr ⟨hsecond, hrest⟩⟩
    · rw [if_neg hc]
      exact Pattern.still_cons.mpr ⟨fun back => Language.comparison_of_ne hc back _, hrest⟩

/-- A bound text compared with a letter. -/
def compared (v : Text) (holds : Bool) : Text :=
  '\'' :: (doubleQuotes v ++ '\'' :: '=' :: ('\'' :: letterText holds ++ ['\'']))

/-- What becomes of it if only a letter is compared. -/
def decided (v : Text) (holds : Bool) : Text :=
  if v = letterText holds then "1=1".toList
  else if v = letterText (!holds) then "1=0".toList
  else compared v holds

theorem segments_letters (x y : Bool) : comparison.segments
    ('\'' :: letterText x ++ '\'' :: '=' :: ('\'' :: letterText y ++ ['\''])) =
      [.hit (x == y)] := by
  have hgap : IsGap [] := isGap_nil
  have hhit := comparison_letters x y hgap hgap none []
  rw [List.nil_append, List.nil_append] at hhit
  set front := '\'' :: letterText x ++ '\'' :: '=' :: ('\'' :: letterText y ++ ['\'']) with hfront
  rw [← List.append_nil front] at hhit
  have h := Pattern.segments_of_hit forward_comparison (by simp [hfront]) hhit
  rwa [List.append_nil, Pattern.segments_nil] at h

theorem segments_closing (holds : Bool) :
    comparison.segments ('\'' :: '=' :: ('\'' :: letterText holds ++ ['\''])) =
      ('\'' :: '=' :: ('\'' :: letterText holds ++ ['\''])).map .item := by
  cases holds <;> cbv

theorem decided_of_ne {v : Text} (h : ∀ x, v ≠ letterText x) (holds : Bool) :
    decided v holds = compared v holds := by
  simp [decided, h]

/-- No letter behind a quote ends the text, or the fold cuts the literal there. -/
theorem foldComparisons_compared (v : Text) (holds : Bool) :
    foldComparisons (compared v holds) = decided v holds ↔ ∀ u x, v ≠ u ++ '\'' :: letterText x := by
  constructor
  · rintro h u x rfl
    have hne (y : Bool) : u ++ '\'' :: letterText x ≠ letterText y := fun he => by
      simpa [letterText] using congrArg List.length he
    set r : Text := '\'' :: letterText x ++ '\'' :: '=' :: ('\'' :: letterText holds ++ ['\''])
      with hr
    have hsign : (Text.skipBlanks r).head? ≠ some '=' := by
      cases x <;> simp [hr, Text.skipBlanks, isBlank]
    have hquote : comparison none ('\'' :: r) = none := comparison_quotes none _
    have hitems : comparison.segments (('\'' :: doubleQuotes u ++ ['\'']) ++ r) =
        ('\'' :: doubleQuotes u ++ ['\'']).map .item ++ [.hit (x == holds)] := by
      rw [List.append_assoc, List.cons_append, List.singleton_append,
        Pattern.segments_of_none forward_comparison (comparison_doubled (fun _ _ => hsign) none),
        Pattern.segments_of_still forward_comparison (still_doubled fun _ _ _ => hsign),
        Pattern.segments_of_none forward_comparison hquote, hr, segments_letters]
      simp
    have htext : compared (u ++ '\'' :: letterText x) holds =
        ('\'' :: doubleQuotes u ++ ['\'']) ++ r := by
      cases x <;> simp [compared, doubleQuotes, letterText, Value.yesNoLetter, hr]
    rw [decided_of_ne hne, htext, foldComparisons, Pattern.replace, Pattern.render, hitems] at h
    have hwritten : (if x == holds then "1=1".toList else "1=0".toList) = r := by
      simpa [List.flatMap_append, List.flatMap_map] using h
    cases hxy : x == holds <;> simp [hxy, hr] at hwritten
  · intro h
    by_cases hletter : ∃ x, v = letterText x
    · obtain ⟨x, rfl⟩ := hletter
      have htext : compared (letterText x) holds =
          '\'' :: letterText x ++ '\'' :: '=' :: ('\'' :: letterText holds ++ ['\'']) := by
        cases x <;> rfl
      rw [htext, foldComparisons, Pattern.replace, Pattern.render, segments_letters]
      cases x <;> cases holds <;> rfl
    · have hne (x : Bool) : v ≠ letterText x := fun he => hletter ⟨x, he⟩
      have hitems : comparison.segments (compared v holds) = (compared v holds).map .item := by
        rw [compared, Pattern.segments_of_none forward_comparison
            (comparison_doubled (fun x hx => absurd hx (hne x)) none),
          Pattern.segments_of_still forward_comparison
            (still_doubled fun u x hx => absurd hx (h u x)), segments_closing]
        simp
      rw [decided_of_ne hne, foldComparisons, Pattern.replace, Pattern.render, hitems,
        List.flatMap_map]
      exact List.flatMap_singleton' _

theorem fillPlaceholders_compared {b : Bindings} {p : Placeholder} {v : Text}
    (hp : Placeholder.IsName p.name) (hv : b.lookup? p.name = some (.text v)) (holds : Bool) :
    fillPlaceholders b
        ('\'' :: p.text ++ '\'' :: '=' :: ('\'' :: letterText holds ++ ['\''])) =
      .ok (compared v holds) := by
  have hquote : '\'' ∉ p.text := Placeholder.barrier_not_mem_text rfl hp
  have hscan : scan ('\'' :: p.text ++ '\'' :: '=' :: ('\'' :: letterText holds ++ ['\''])) =
      .ok ⟨[⟨[], Language.literal p.text⟩, ⟨[], sign⟩, ⟨[], letter holds⟩], []⟩ := by
    refine scan_eq_ok_iff.mpr ⟨?_, ?_, isGap_nil⟩
    · simp [Scan.text, Lexeme.text, Language.literal, sign, letter]
    · refine ⟨isGap_nil, formed_literal hquote, ?_, isGap_nil, sign_formed, ?_, isGap_nil,
        letter_formed holds, ?_, trivial⟩
      · simp [Token.Stops, Language.literal, Lexeme.text, sign, letter]
      · simp [Token.Stops, Lexeme.text, sign, letter]
      · simp [Token.Stops, letter]
  have hfill : Placeholder.fill b Value.inLiteral p.text = doubleQuotes v := by
    have htext := Placeholder.fill_text Value.inLiteral hp hv []
    rwa [Placeholder.fill_nil, List.append_nil, List.append_nil] at htext
  have hletter : Placeholder.fill b Value.inLiteral (letterText holds) = letterText holds := by
    have hplain := Language.fill_append (b := b) Value.inLiteral (u := letterText holds)
      (by cases holds <;> decide) []
    rwa [Placeholder.fill_nil, List.append_nil] at hplain
  have hrest : Language.filling b [] [⟨[], sign⟩, ⟨[], letter holds⟩] =
      '=' :: ('\'' :: letterText holds ++ ['\'']) := by
    have hsign := @Language.filled_plain b [] [⟨[], sign⟩] (by simp [Lexeme.is, sign])
      (by simp [Lexeme.text, sign]) [⟨[], letter holds⟩]
    have hlast := @Language.filled_literal b [] [] isGap_nil (letterText holds) []
    rw [hletter] at hlast
    rw [← List.singleton_append, hsign]
    change _ ++ Language.filling b [] [⟨[], Language.literal (letterText holds)⟩] = _
    rw [hlast]
    simp [Lexeme.text, sign, Language.filling, Stretches.ofLexemes, Stretches.fill,
      Placeholder.fill_nil]
  rw [fillPlaceholders, hscan]
  change Except.ok (Language.filling b [] _) = _
  rw [Language.filled_literal isGap_nil, hrest, hfill]
  simp [compared]

/-- The letters that are compared among the tokens make way for markers and nothing else exactly where
the text falls into comparisons as the tokens do, and no marker joins what stands next to it. A variable
in quotes is compared as a whole unless its value ends in a letter behind a quote. -/
theorem tokensOf_foldComparisons {s : Text} {found : Scan} (hs : scan s = .ok found) :
    (tokensOf (foldComparisons s) = .ok ((folded found.lexemes).map Lexeme.token) ↔
      comparison.Parted triple Prod.fst Prod.snd found.lexemes found.tail ∧
        Fit (folded found.lexemes) found.tail) ∧
    ∀ (b : Bindings) (p : Placeholder) (v : Text) (holds : Bool), Placeholder.IsName p.name →
      b.lookup? p.name = some (.text v) →
      fillPlaceholders b
          ('\'' :: p.text ++ '\'' :: '=' :: ('\'' :: letterText holds ++ ['\''])) =
        .ok (compared v holds) ∧
      (foldComparisons (compared v holds) = decided v holds ↔
        ∀ u x, v ≠ u ++ '\'' :: letterText x) := by
  obtain ⟨rfl, hfit, htail⟩ := scan_eq_ok_iff.mp hs
  refine ⟨echoes_triple.tokensOf_replace_iff hfit htail, fun b p v holds hp hv => ?_⟩
  exact ⟨fillPlaceholders_compared hp hv holds, foldComparisons_compared v holds⟩

/-- Letters are compared, with a sign in between; a variable with the value `a'Y` is cut. -/
theorem tokensOf_foldComparisons_cut :
    ∃ found, scan "A='Y' or 'N' ='Y'".toList = .ok found ∧
      (comparison.Parted triple Prod.fst Prod.snd found.lexemes found.tail ∧
        Fit (folded found.lexemes) found.tail) ∧
      ∃ b : Bindings, fillPlaceholders b "'@X@'='Y'".toList = .ok (compared "a'Y".toList true) ∧
        foldComparisons (compared "a'Y".toList true) ≠ decided "a'Y".toList true := by
  have hs : scan "A='Y' or 'N' ='Y'".toList = .ok ⟨[⟨[], .word, ['A']⟩, ⟨[], sign⟩,
      ⟨[], letter true⟩, ⟨[' '], .word, ['o', 'r']⟩, ⟨[' '], letter false⟩, ⟨[' '], sign⟩,
      ⟨[], letter true⟩], []⟩ := by cbv
  obtain ⟨htokens, hbound⟩ := tokensOf_foldComparisons hs
  have hname : Placeholder.IsName "X".toList :=
    ⟨by simp, by simpa using isWordChar_of_isNameChar rfl⟩
  have hvalue : Bindings.lookup? ⟨[("X".toList, .text "a'Y".toList)], by simp⟩ "X".toList =
      some (.text "a'Y".toList) := by cbv
  obtain ⟨hfill, hcut⟩ := hbound _ ⟨false, "X".toList⟩ _ true hname hvalue
  exact ⟨_, hs, htokens.mp (by cbv), _, hfill, fun h => hcut.mp h ['a'] true rfl⟩

end YesNo

end WhereFilter
