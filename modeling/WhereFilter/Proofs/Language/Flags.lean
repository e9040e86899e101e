import WhereFilter.Proofs.Language.Values

namespace WhereFilter

namespace Language

open Pattern Reading

/-- The letter of a truth value in quotes. -/
def letterText (holds : Bool) : Text :=
  [Value.yesNoLetter holds]

theorem literal?_eq_some {s rest : Text} {holds : Bool} :
    YesNo.literal? s = some (holds, rest) ↔
      s = '\'' :: letterText holds ++ '\'' :: rest := by
  constructor
  · intro h
    unfold YesNo.literal? at h
    split at h
    · cases h
      rfl
    · cases h
      rfl
    · cases h
  · rintro rfl
    cases holds <;> rfl

theorem comparison_of_ne {c : Char} (h : c ≠ '\'') (back : Option Char) (r : Text) :
    YesNo.comparison back (c :: r) = none := by
  cases hl : YesNo.literal? (c :: r) with
  | none => simp only [YesNo.comparison, hl, Option.bind_eq_bind, Option.bind_none]
  | some found =>
    have he := literal?_eq_some.mp hl
    exact absurd (List.cons.inj he).1 h

theorem still_comparison_of_quoteFree {u : Text} (h : '\'' ∉ u) (s : Text) :
    YesNo.comparison.Still u s := by
  apply still_of_heads
  intro a ha
  apply comparison_of_ne
  rintro rfl
  exact h ha

/-- What a literal may stand before if nothing is compared with it. -/
structure Rests (s : Text) : Prop where
  firm : Firm s
  no_equals : (Text.skipBlanks s).head? ≠ some '='

theorem comparison_literal {c s : Text} (hc : '\'' ∉ c) (hs : Rests s) (back : Option Char) :
    YesNo.comparison back ('\'' :: (c ++ '\'' :: s)) = none := by
  have hnext : Text.after? ['='] (Text.skipBlanks s) = none := by
    apply Text.after?_eq_none
    intro rest he
    exact hs.no_equals (by rw [he]; rfl)
  cases hl : YesNo.literal? ('\'' :: (c ++ '\'' :: s)) with
  | none => simp only [YesNo.comparison, hl, Option.bind_eq_bind, Option.bind_none]
  | some found =>
    obtain ⟨holds, rest⟩ := found
    have he := literal?_eq_some.mp hl
    simp only [letterText, List.cons_append, List.nil_append, List.cons.injEq, true_and] at he
    have hrest : rest = s := by
      cases c with
      | nil =>
        have hq : '\'' = Value.yesNoLetter holds := (List.cons.inj he).1
        cases holds <;> cases hq
      | cons a c =>
        have htail := (List.cons.inj he).2
        cases c with
        | nil => exact (List.cons.inj htail).2.symm
        | cons a' c =>
          have hq : a' = '\'' := (List.cons.inj htail).1
          rw [hq] at hc
          exact absurd (by simp) hc
    simp only [YesNo.comparison, hl, hrest, hnext, Option.bind_eq_bind, Option.bind_some,
      Option.bind_none]

theorem still_comparison_literal {c s : Text} (hc : '\'' ∉ c) (hs : Rests s) :
    YesNo.comparison.Still (literal c).text s := by
  have hlast : YesNo.comparison.Still ['\''] s := by
    refine still_cons.mpr ⟨fun back => ?_, still_nil⟩
    cases hl : YesNo.literal? ('\'' :: s) with
    | none => simp only [YesNo.comparison, List.nil_append, hl, Option.bind_eq_bind, Option.bind_none]
    | some found =>
      obtain ⟨holds, rest⟩ := found
      have he := literal?_eq_some.mp hl
      simp only [letterText, List.cons_append, List.nil_append, List.cons.injEq, true_and] at he
      have hfirm := hs.firm (Value.yesNoLetter holds) (by rw [he]; rfl)
      cases holds <;> exact absurd hfirm (by decide)
  refine still_cons.mpr ⟨fun back => ?_, ?_⟩
  · have h := comparison_literal hc hs back
    simpa using h
  · exact Still.append (still_comparison_of_quoteFree hc _) hlast

theorem quote_not_mem_gap {g : Text} (hg : IsGap g) : '\'' ∉ g := by
  intro hm
  cases hg _ hm

theorem Item.still_comparison {i : Item} (hi : i.Formed) (hv : i.Valued) {g : Text} (hg : IsGap g)
    {s : Text} (hs : Rests s) :
    YesNo.comparison.Still ((spaced g i.tokens).flatMap Lexeme.text) s := by
  have numeral {n : Text} (hn : Token.Numeral n) : '\'' ∉ n :=
    not_mem_numeral hn rfl (by decide)
  rw [text_spaced g i.tokens_ne_nil]
  refine (still_comparison_of_quoteFree (quote_not_mem_gap hg) _).append ?_
  match i with
  | .number true digits =>
    apply still_comparison_of_quoteFree
    simpa [tokens, minus] using numeral hi
  | .number false digits =>
    apply still_comparison_of_quoteFree
    simpa [tokens] using numeral hi
  | .literal contents =>
    simpa [tokens] using still_comparison_literal (not_quote_of_plain hi) hs
  | .truth true =>
    apply still_comparison_of_quoteFree
    simp [tokens, word, truthWord]
  | .truth false =>
    apply still_comparison_of_quoteFree
    simp [tokens, word, truthWord]

/-- How lexemes are written where letters that are compared become markers. -/
abbrev Decides (tail : Text) (u s u' : List Lexeme) : Prop :=
  YesNo.comparison.Turns (fun c => [c]) (fun agree => if agree then "1=1".toList else "1=0".toList)
    (u.flatMap Lexeme.text) (s.flatMap Lexeme.text ++ tail) (u'.flatMap Lexeme.text)

theorem decides_of_still {tail : Text} {u s : List Lexeme}
    (h : YesNo.comparison.Still (u.flatMap Lexeme.text) (s.flatMap Lexeme.text ++ tail)) :
    Decides tail u s u :=
  turns_of_still _ h

theorem Decides.append {tail : Text} {u v s u' v' : List Lexeme} (hu : Decides tail u (v ++ s) u')
    (hv : Decides tail v s v') : Decides tail (u ++ v) s (u' ++ v') := by
  simp only [Decides, List.flatMap_append, List.append_assoc] at hu hv ⊢
  exact Turns.append hu hv

theorem decides_quoteFree (tail : Text) {l : Lexeme} (hg : IsGap l.gap) (hl : '\'' ∉ l.token.text)
    (s : List Lexeme) : Decides tail [l] s [l] := by
  apply decides_of_still
  apply still_comparison_of_quoteFree
  simp [Lexeme.text, quote_not_mem_gap hg, hl]

theorem rests_of_sign {l : Lexeme} {c : Char} {t : Text} (hg : IsGap l.gap)
    (ht : l.token.text = c :: t) (hc : c ∈ firmChars) (hb : isBlank c = false) (hne : c ≠ '=')
    (ls : List Lexeme) (tail : Text) : Rests ((l :: ls).flatMap Lexeme.text ++ tail) := by
  refine ⟨firm_lexeme hg ht hc, ?_⟩
  rw [List.flatMap_cons, Lexeme.text, ht, List.append_assoc, List.append_assoc, List.cons_append,
    skipBlanks_gap hg hb]
  simpa using hne

theorem Ends.rests {s : List Lexeme} (h : Ends s) {tail : Text} (ht : IsGap tail) :
    Rests (s.flatMap Lexeme.text ++ tail) := by
  refine ⟨h.firm ht, ?_⟩
  cases h with
  | nil =>
    have hskip := skipBlanks_append (r := []) (fun a ha => isBlank_of_isGapChar (ht a ha)) rfl
    rw [List.append_nil] at hskip
    rw [List.flatMap_nil, List.nil_append, hskip]
    simp
  | closing hg => exact (rests_of_sign hg rfl (by decide) rfl (by decide) _ tail).no_equals
  | @joint j w ls hj hw =>
    have hword : w ≠ [] ∧ w.all Char.isAlpha = true := by
      rcases hw with rfl | rfl <;> exact ⟨by decide, by decide⟩
    have hskip := skipBlanks_word hj.spells hword.1 hword.2 hj.before (ls.flatMap Lexeme.text ++ tail)
    have htext : (⟨j.before, word j.text⟩ :: ls : List Lexeme).flatMap Lexeme.text ++ tail =
        j.before ++ (j.text ++ (ls.flatMap Lexeme.text ++ tail)) := by
      simp [Lexeme.text, word]
    obtain ⟨c, r, he, hc, -⟩ := hj.spells.formed hword.1 hword.2
    have he' : j.text = c :: r := he
    rw [htext, hskip, he']
    intro hh
    have heq : c = '=' := by simpa using hh
    rw [heq] at hc
    cases hc

/-- Letters that are compared are decided, and a marker says how. -/
def Clause.decided : Clause → Clause
  | .compare (.item (.literal a)) _ .equals _ (.literal c) =>
    .compare (.item (.number false ['1'])) [] .equals []
      (.number false [if a == c then '1' else '0'])
  | c => c

/-- Items are compared only if they are letters. -/
def Clause.Lettered (c : Clause) : Prop :=
  ∀ i before relation behind right, c = .compare (.item i) before relation behind right →
    relation = .equals ∧ ∃ x y, i = .literal (letterText x) ∧ right = .literal (letterText y)

theorem comparison_letters (x y : Bool) {g h : Text} (hg : IsGap g) (hh : IsGap h)
    (back : Option Char) (s : Text) :
    YesNo.comparison back ('\'' :: letterText x ++ '\'' :: (g ++ '=' :: (h ++
      ('\'' :: letterText y ++ '\'' :: s)))) = some (x == y, s) := by
  have hx (r : Text) : YesNo.literal? ('\'' :: letterText x ++ '\'' :: r) = some (x, r) :=
    literal?_eq_some.mpr rfl
  have hy (r : Text) : YesNo.literal? ('\'' :: letterText y ++ '\'' :: r) = some (y, r) :=
    literal?_eq_some.mpr rfl
  have hsign (r : Text) : Text.skipBlanks (g ++ '=' :: r) = '=' :: r := skipBlanks_gap hg rfl r
  have hquote (r : Text) : Text.skipBlanks (h ++ ('\'' :: letterText y ++ r)) =
      '\'' :: letterText y ++ r := skipBlanks_gap hh rfl _
  simp only [YesNo.comparison, hx, hy, hsign, hquote, Text.after?, Option.bind_eq_bind,
    Option.bind_some, if_true]

theorem decides_letters (x y : Bool) {g before behind : Text} (hg : IsGap g) (hb : IsGap before)
    (hb' : IsGap behind) (tail : Text) (s : List Lexeme) :
    Decides tail
      ((Clause.compare (.item (.literal (letterText x))) before .equals behind
        (.literal (letterText y))).lexemes g) s
      ((Clause.compare (.item (.number false ['1'])) [] .equals []
        (.number false [if x == y then '1' else '0'])).lexemes g) := by
  have hit (back : Option Char) :=
    comparison_letters x y hb hb' back (s.flatMap Lexeme.text ++ tail)
  have hturn := turns_of_hit (p := YesNo.comparison)
    (fun agree => if agree then "1=1".toList else "1=0".toList) (g := g) (u := '\'' :: letterText x ++ '\'' :: (before ++ '=' :: (behind ++
      ('\'' :: letterText y ++ ['\''])))) (s := s.flatMap Lexeme.text ++ tail) (b := x == y)
    (still_comparison_of_quoteFree (quote_not_mem_gap hg) _) (by simp)
    (by simpa using fun back => hit _)
  cases hxy : x == y <;>
    simpa [Decides, Clause.lexemes, Side.lexemes, spaced, Item.tokens, Relation.token, Lexeme.text,
      literal, hxy] using hturn

theorem Item.decides {i : Item} (hi : i.Formed) (hv : i.Valued) {g : Text} (hg : IsGap g)
    {tail : Text} {s : List Lexeme} (hs : Rests (s.flatMap Lexeme.text ++ tail)) :
    Decides tail (spaced g i.tokens) s (spaced g i.tokens) :=
  decides_of_still (i.still_comparison hi hv hg hs)

theorem decides_entries {e : Entry} {es : List Entry} (h : ∀ f ∈ e :: es, f.Formed)
    (hv : ∀ f ∈ e :: es, f.item.Valued) (tail : Text) (s : List Lexeme) :
    Decides tail (entries e es) s (entries e es) := by
  induction es generalizing e with
  | nil =>
    have he := h e (by simp)
    have hclose := decides_quoteFree tail (l := ⟨e.behind, closing⟩) he.behind
      (by simp [closing]) s
    refine Decides.append (e.item.decides he.item (hv e (by simp)) he.gap ?_) hclose
    exact rests_of_sign he.behind rfl (by decide) rfl (by decide) _ tail
  | cons f es ih =>
    have he := h e (by simp)
    have hcomma := decides_quoteFree tail (l := ⟨e.behind, comma⟩) he.behind
      (by simp [comma])
    have hrest := ih (e := f) (fun a ha => h a (List.mem_cons_of_mem e ha))
      fun a ha => hv a (List.mem_cons_of_mem e ha)
    refine Decides.append (e.item.decides he.item (hv e (by simp)) he.gap ?_)
      ((hcomma _).append hrest)
    exact rests_of_sign he.behind rfl (by decide) rfl (by decide) _ tail

theorem quote_not_mem_relation (r : Relation) : '\'' ∉ r.token.text := by
  cases r <;> decide

theorem Spells.not_mem {w s : Text} (h : Spells w s) (hn : w ≠ [])
    (hw : w.all Char.isAlpha = true) {a : Char} (ha : Token.isNameChar a = false) : a ∉ s := by
  obtain ⟨c, r, he, hc, hr⟩ := h.formed hn hw
  have he' : s = c :: r := he
  intro hm
  rw [he'] at hm
  rcases List.mem_cons.mp hm with rfl | hm
  · simp only [Token.isNameStart, Token.isNameChar, Char.isAlphanum, Bool.or_eq_true,
      Bool.or_eq_false_iff] at hc ha
    rcases hc with hc | hc
    · rw [ha.1.1] at hc
      cases hc
    · rw [ha.2] at hc
      cases hc
  · rw [hr a hm] at ha
    cases ha

theorem Clause.decides {c : Clause} (hc : c.Formed) (hbare : c.Bare) (hv : c.ForItems Item.Valued)
    (hl : c.Lettered) {g : Text} (hg : IsGap g) {tail : Text} (ht : IsGap tail) {s : List Lexeme}
    (hs : Ends s) : Decides tail (c.lexemes g) s (c.decided.lexemes g) := by
  have subject {x : Subject} (hx : x.Formed) (hb : x.table = none ∧ x.call = none)
      (s : List Lexeme) : Decides tail (x.lexemes g) s (x.lexemes g) := by
    rw [x.lexemes_of_bare hb.1 hb.2]
    exact decides_quoteFree tail hg (hx.column.not_mem rfl) s
  match c, hc, hbare, hv, hl with
  | .compare (.item i) before relation behind right, hc, hbare, hv, hl =>
    obtain ⟨rfl, x, y, rfl, rfl⟩ := hl _ _ _ _ _ rfl
    have hletters : (letterText x == letterText y) = (x == y) := by cases x <;> cases y <;> rfl
    have hturn := decides_letters x y hg hc.2.1 hc.2.2.1 tail s
    simpa only [decided, hletters] using hturn
  | .compare (.subject x) before relation behind right, hc, hbare, hv, hl =>
    obtain ⟨hx, hbefore, hbehind, hr, -⟩ := hc
    have hsign := decides_quoteFree tail (l := ⟨before, relation.token⟩) hbefore
      (quote_not_mem_relation relation)
    have hright := right.decides hr hv hbehind (hs.rests ht)
    exact (subject hx (hbare x rfl) _).append ((hsign _).append hright)
  | .member x negation membership beforeOpen first rest, hc, hbare, hv, hl =>
    obtain ⟨hx, hn, hm, ho, he⟩ := hc
    have spelled {w : Text} {n : Spelling} (hn : n.Of w) (hne : w ≠ [])
        (hw : w.all Char.isAlpha = true) (s : List Lexeme) :
        Decides tail [n.lexeme] s [n.lexeme] :=
      decides_quoteFree tail hn.gap (hn.spells.not_mem hne hw rfl) s
    have hopen := decides_quoteFree tail (l := ⟨beforeOpen, opening⟩) ho
      (by simp [opening])
    have hlist := (spelled hm (by decide) (by decide) _).append
      ((hopen _).append (decides_entries he hv tail s))
    cases negation with
    | none => exact (subject hx (hbare x rfl) _).append hlist
    | some n =>
      have hn := spelled (hn n rfl) (by decide) (by decide)
      exact (subject hx (hbare x rfl) _).append ((hn _).append hlist)

/-- A rule with values in the places of its variables. -/
structure Clause.Settled (c : Clause) : Prop where
  formed : c.Formed
  bare : c.Bare
  valued : c.ForItems Item.Valued

theorem carries_decides {tail : Text} (ht : IsGap tail) :
    Carries (Decides tail) id (fun c => .clause c.decided) (fun c => c.Settled ∧ c.Lettered) := by
  refine ⟨Decides.append, ?_, ?_, ?_, ?_⟩
  · intro g s hg
    exact decides_quoteFree tail hg (by simp [opening]) s
  · intro g s hg
    exact decides_quoteFree tail hg (by simp [closing]) s
  · intro j w s hj hw _
    have hquote : '\'' ∉ j.text := by
      rcases hw with rfl | rfl
      · exact hj.spells.not_mem (by decide) (by decide) rfl
      · exact hj.spells.not_mem (by decide) (by decide) rfl
    exact decides_quoteFree tail hj.before hquote s
  · intro c g s hc hg hs
    exact c.decides hc.1.formed hc.1.bare hc.1.valued hc.2 hg ht hs

/-- The fourth pass decides the comparisons of a rule between two letters. -/
theorem foldComparisons_text {r : Rule k} (hr : r.Formed fun c => c.Settled ∧ c.Lettered)
    {lead tail : Text} (hlead : IsGap lead) (htail : IsGap tail) :
    YesNo.foldComparisons (r.text lead tail) =
      (r.rebuild id fun c => .clause c.decided).text lead tail := by
  have hturn := (carries_decides htail).rule (fun _ h => h.1.formed) hr hlead .nil
  have hend : YesNo.comparison.Turns (fun c => [c])
      (fun agree => if agree then "1=1".toList else "1=0".toList) tail [] tail :=
    turns_of_still _ (still_comparison_of_quoteFree (quote_not_mem_gap htail) [])
  simp only [Decides, List.flatMap_nil, List.nil_append] at hturn
  have hall := Turns.append (v := tail) (s := []) (by simpa using hturn) hend
  exact hall.render

theorem numeral_digit {d : Char} (h : d.isDigit = true) : Token.Numeral [d] :=
  .whole (by simp) (by simpa using h)

/-- Where items are compared they are the two numbers of a marker. -/
def Clause.Marked (c : Clause) : Prop :=
  ∀ i before relation behind right, c = .compare (.item i) before relation behind right →
    i = .number false ['1'] ∧ (relation = .equals ∨ relation = .eqWord) ∧
      ∃ holds : Bool, right = .number false [if holds then '1' else '0']

theorem Clause.decided_spec {c : Clause} (hc : c.Settled) (hl : c.Lettered) (b : Bindings)
    (row : Row) :
    c.decided.Settled ∧ c.decided.Marked ∧ c.decided.truth b row = c.truth b row := by
  match c, hc, hl with
  | .compare (.item i) before relation behind right, hc, hl =>
    obtain ⟨rfl, x, y, rfl, rfl⟩ := hl _ _ _ _ _ rfl
    have hdigit (holds : Bool) : Token.Numeral [if holds then '1' else '0'] := by
      cases holds
      · exact numeral_digit rfl
      · exact numeral_digit rfl
    refine ⟨⟨⟨numeral_digit rfl, isGap_nil, isGap_nil, hdigit _, by simp [Relation.isSpelled]⟩, ?_,
      trivial, trivial⟩, ?_, ?_⟩
    · intro x hx
      cases hx
    · intro i before relation behind right he
      cases he
      exact ⟨rfl, .inl rfl, _, rfl⟩
    · cases x <;> cases y <;> rfl
  | .compare (.subject x) before relation behind right, hc, hl =>
    refine ⟨hc, ?_, rfl⟩
    intro i before relation behind right he
    cases he
  | .member x negation membership beforeOpen first rest, hc, hl =>
    refine ⟨hc, ?_, rfl⟩
    intro i before relation behind right he
    cases he

end Language

end WhereFilter
