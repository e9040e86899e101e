import WhereFilter.Proofs.Token.Fit

namespace WhereFilter

theorem append_eq_append_cons {x y b a : List α} {c : α} (h : x ++ y = b ++ c :: a) :
    (∃ m, x = b ++ c :: m) ∨ ∃ m, b = x ++ m ∧ y = m ++ c :: a := by
  rcases List.append_eq_append_iff.mp h with ⟨m, hb, hy⟩ | ⟨m, hx, hy⟩
  · exact .inr ⟨m, hb, hy⟩
  · cases m with
    | nil => exact .inr ⟨[], by simpa using hx.symm, by simpa using hy.symm⟩
    | cons d m =>
      rw [List.cons_append, List.cons.injEq] at hy
      obtain ⟨rfl, -⟩ := hy
      exact .inl ⟨m, hx⟩

/-- A run that starts with `l` and goes no further than `p` holds. -/
theorem length_le_of_run {p : α → Bool} {u l r : List α} (h : u <+: l ++ r)
    (hu : ∀ a ∈ u, p a = true) (hr : r.head?.any p = false) : u.length ≤ l.length := by
  obtain ⟨v, hv⟩ := h
  rcases List.append_eq_append_iff.mp hv with ⟨m, rfl, -⟩ | ⟨m, rfl, rfl⟩
  · simp
  · cases m with
    | nil => simp
    | cons a m =>
      have ha : p a = true := hu a (by simp)
      simp [ha] at hr

namespace Token

/-- The token grammar: the texts of each kind. A character that starts none of them is
`other`. -/
inductive Spells : Kind → Text → Prop
  | parenLeft : Spells .parenLeft ['(']
  | parenRight : Spells .parenRight [')']
  | comma : Spells .comma [',']
  | dot : Spells .dot ['.']
  | minus : Spells .minus ['-']
  | equals : Spells .equals ['=']
  | doubleEquals : Spells .doubleEquals ['=', '=']
  | notEquals : Spells .notEquals ['<', '>']
  | bangEquals : Spells .bangEquals ['!', '=']
  | less : Spells .less ['<']
  | lessEquals : Spells .lessEquals ['<', '=']
  | greater : Spells .greater ['>']
  | greaterEquals : Spells .greaterEquals ['>', '=']
  | number {n : Text} (hn : Numeral n) : Spells .number n
  | word {c : Char} {r : Text} (hc : isNameStart c = true) (hr : ∀ a ∈ r, isNameChar a = true) :
      Spells .word (c :: r)
  | literal {b : Text} (hb : Paired '\'' b) : Spells .literal ('\'' :: b ++ ['\''])
  | quoted {b : Text} (hb : Paired '"' b) : Spells .quoted ('"' :: b ++ ['"'])

/-- `t` is the longest token that `s` starts with, and no other kind has its text. -/
inductive Longest : Token → Text → Prop
  | spelled {k : Kind} {u s : Text} (hk : Spells k u) (hu : u <+: s)
      (longest : ∀ k' u', Spells k' u' → u' <+: s →
        u'.length ≤ u.length ∧ (u' = u → k' = k)) : Longest ⟨k, u⟩ s
  | other {c : Char} {s : Text} (none : ∀ k u, Spells k u → ¬ u <+: c :: s) :
      Longest ⟨.other, [c]⟩ (c :: s)

theorem Numeral.cons {n : Text} (h : Numeral n) : ∃ c r, n = c :: r ∧ c.isDigit = true := by
  cases h with
  | whole hn hw =>
    obtain ⟨c, r, rfl⟩ := List.exists_cons_of_ne_nil hn
    exact ⟨c, r, rfl, hw c (by simp)⟩
  | @fraction w f hn hw hfn hf =>
    obtain ⟨c, r, rfl⟩ := List.exists_cons_of_ne_nil hn
    exact ⟨c, r ++ '.' :: f, rfl, hw c (by simp)⟩

theorem Spells.formed {k : Kind} {u : Text} (h : Spells k u) : Formed ⟨k, u⟩ := by
  cases h
  case number hn => exact hn
  case word c r hc hr => exact ⟨c, r, rfl, hc, hr⟩
  case literal b hb => exact ⟨b, hb, rfl⟩
  case quoted b hb => exact ⟨b, hb, rfl⟩
  all_goals simp [Formed, signs]

theorem Formed.spells {t : Token} (h : t.Formed) (hk : t.kind ≠ .other) : Spells t.kind t.text := by
  obtain ⟨kind, text⟩ := t
  cases kind
  case other => exact absurd rfl hk
  case number => exact .number h
  case word =>
    obtain ⟨c, r, rfl, hc, hr⟩ := h
    exact .word hc hr
  case literal =>
    obtain ⟨b, hb, rfl⟩ := h
    exact .literal hb
  case quoted =>
    obtain ⟨b, hb, rfl⟩ := h
    exact .quoted hb
  all_goals
    simp only [Formed, signs, List.mem_cons, Prod.mk.injEq, reduceCtorEq, and_false, and_true,
      false_or, or_false, List.not_mem_nil] at h
    subst h
    constructor

/-- The kind that a first character settles, where it is not that of a fixed spelling. -/
def leads (c : Char) : Option Kind :=
  if isNameStart c then some .word
  else if c.isDigit then some .number
  else if c = '\'' then some .literal
  else if c = '"' then some .quoted
  else none

theorem Spells.leads {k : Kind} {c : Char} {r : Text} (h : Spells k (c :: r)) :
    leads c = some k ∨ leads c = none ∧ (c :: r, k) ∈ signs := by
  generalize hu : c :: r = u at h
  cases h
  case number hn =>
    obtain ⟨c', r', rfl, hd⟩ := hn.cons
    cases hu
    exact .inl (by simp [Token.leads, digit_not_nameStart hd, hd])
  case word hc _ =>
    cases hu
    exact .inl (by simp [Token.leads, hc])
  case literal | quoted =>
    cases hu
    exact .inl (by decide)
  all_goals
    cases hu
    exact .inr (by decide)

theorem Spells.ne_nil {k : Kind} {u : Text} (h : Spells k u) : u ≠ [] := by
  rintro rfl
  generalize hu : [] = u at h
  cases h
  case number hn =>
    obtain ⟨c, r, rfl, -⟩ := hn.cons
    cases hu
  all_goals cases hu

/-- One fixed spelling goes on from another only where `Stops` looks. -/
theorem signs_longer : ∀ x ∈ signs, ∀ y ∈ signs, x.1 <+: y.1 → x = y ∨
    y.1 = x.1 ++ ['='] ∧ (x.2 = .equals ∨ x.2 = .greater ∨ x.2 = .less) ∨
    y.1 = x.1 ++ ['>'] ∧ x.2 = .less := by
  decide

theorem Stops.signs {k k' : Kind} {u v rest : Text} (hs : Stops ⟨k, u⟩ rest)
    (hk : (u, k) ∈ signs) (hk' : (v, k') ∈ signs) (hv : v <+: u ++ rest) :
    v.length ≤ u.length ∧ (v = u → k' = k) := by
  rcases List.prefix_or_prefix_of_prefix hv (List.prefix_append u rest) with h | h
  · refine ⟨h.length_le, ?_⟩
    rintro rfl
    rcases signs_longer _ hk _ hk' h with he | ⟨he, -⟩ | ⟨he, -⟩
    · exact (congrArg Prod.snd he).symm
    · simp at he
    · simp at he
  · obtain ⟨r, hr⟩ := hv
    rcases signs_longer _ hk _ hk' h with he | ⟨rfl, hc⟩ | ⟨rfl, hc⟩
    · cases he
      exact ⟨Nat.le_refl _, fun _ => rfl⟩
    · simp only [List.append_assoc, List.append_cancel_left_eq] at hr
      subst hr
      rcases hc with hc | hc | hc <;> simp only at hc <;> subst hc <;> simp [Stops] at hs
    · simp only [List.append_assoc, List.append_cancel_left_eq] at hr
      subst hr
      simp only at hc
      subst hc
      simp [Stops] at hs

/-- A quote that closes one body stands in no other that starts with it. -/
theorem Paired.length_le {quote : Char} {a b r s : Text} (ha : Paired quote a)
    (hb : Paired quote b) (h : a ++ quote :: r = b ++ quote :: s) (hs : s.head? ≠ some quote) :
    a.length ≤ b.length := by
  induction hb generalizing a with
  | nil =>
    cases ha with
    | nil => simp
    | pair _ =>
      simp only [List.cons_append, List.nil_append, List.cons.injEq, true_and] at h
      subst h
      exact absurd rfl hs
    | plain hc _ =>
      simp only [List.cons_append, List.nil_append, List.cons.injEq] at h
      exact absurd h.1 hc
  | pair _ ih =>
    cases ha with
    | nil => simp
    | pair ha =>
      simp only [List.cons_append, List.cons.injEq, true_and] at h
      simpa using ih ha h
    | plain hc _ =>
      simp only [List.cons_append, List.cons.injEq] at h
      exact absurd h.1 hc
  | plain hc _ ih =>
    cases ha with
    | nil => simp
    | pair _ =>
      simp only [List.cons_append, List.cons.injEq] at h
      exact absurd h.1.symm hc
    | plain _ ha =>
      simp only [List.cons_append, List.cons.injEq] at h
      simpa using ih ha h.2

/-- `number` takes in all of a numeral that stands at the front. -/
theorem Numeral.prefix_number {u : Text} (h : Numeral u) (v : Text) :
    u <+: (number (u ++ v)).1 := by
  cases h with
  | whole hn hw =>
    have ht : (u ++ v).takeWhile Char.isDigit = u ++ v.takeWhile Char.isDigit :=
      List.takeWhile_append_of_pos hw
    unfold number
    rw [ht]
    split
    · split
      · exact ⟨_, (List.append_assoc ..).symm⟩
      · exact List.prefix_append _ _
    · exact List.prefix_append _ _
  | @fraction w f hn hw hfn hf =>
    obtain ⟨d, f, rfl⟩ := List.exists_cons_of_ne_nil hfn
    obtain ⟨ht, hd⟩ := run_append (p := Char.isDigit) (r := '.' :: (d :: f ++ v)) hw rfl
    have hd' : d.isDigit = true := hf d (by simp)
    have hf' : (f ++ v).takeWhile Char.isDigit = f ++ v.takeWhile Char.isDigit :=
      List.takeWhile_append_of_pos fun a ha => hf a (List.mem_cons_of_mem _ ha)
    simp only [List.append_assoc, List.cons_append] at ht hd ⊢
    unfold number
    rw [ht, hd]
    simp [hd', hf']

/-- Nothing that starts as `t` does goes on past it. -/
theorem Formed.longest_of_kind {t : Token} {u rest : Text} (ht : t.Formed) (hs : t.Stops rest)
    (hu : Spells t.kind u) (hp : u <+: t.text ++ rest) (hk : t.kind ≠ .other) :
    u.length ≤ t.text.length := by
  obtain ⟨kind, text⟩ := t
  have hf := hu.formed
  obtain ⟨v, hv⟩ := hp
  cases kind
  case other => exact absurd rfl hk
  case word =>
    obtain ⟨c, w, rfl, hc, hw⟩ := hf
    obtain ⟨c', w', rfl, -, -⟩ := ht
    simp only [List.cons_append, List.cons.injEq] at hv
    simpa using length_le_of_run ⟨v, hv.2⟩ hw hs
  case number =>
    have hle := (Numeral.prefix_number hf v).length_le
    rw [hv, number_append ht hs] at hle
    exact hle
  case literal | quoted =>
    obtain ⟨a, ha, rfl⟩ := hf
    obtain ⟨b, hb, rfl⟩ := ht
    simp only [List.cons_append, List.append_assoc, List.cons.injEq, true_and,
      List.nil_append] at hv
    simpa using ha.length_le hb hv hs
  all_goals
    cases hu
    cases ht.spells hk
    exact Nat.le_refl _

theorem leads_eq_none_of_other {c : Char} (h : isOtherChar c = true) : leads c = none := by
  simp only [isOtherChar, Bool.not_eq_true', Bool.or_eq_false_iff] at h
  simp_all [leads]

/-- What stands as its kind asks is the longest token there. -/
theorem Formed.longest {t : Token} {rest : Text} (ht : t.Formed) (hs : t.Stops rest) :
    Longest t (t.text ++ rest) := by
  by_cases hk : t.kind = .other
  · obtain ⟨kind, text⟩ := t
    simp only at hk
    subst hk
    obtain ⟨c, rfl, hc⟩ := ht
    refine .other ?_
    rintro k u hu ⟨v, hv⟩
    obtain ⟨a, r, rfl⟩ := List.exists_cons_of_ne_nil hu.ne_nil
    simp only [List.cons_append, List.cons.injEq] at hv
    obtain ⟨rfl, hv⟩ := hv
    have hl := leads_eq_none_of_other hc
    rcases hu.leads with h | ⟨-, hm⟩
    · rw [hl] at h
      cases h
    · -- of the fixed spellings only `!=` starts as no token does by itself
      have hb : ∀ x ∈ signs, x.1.head?.any isOtherChar = true → x.1 = ['!', '='] := by decide
      have he := hb _ hm hc
      cases he
      exact hs rfl (congrArg List.head? hv.symm)
  · have hsp := ht.spells hk
    refine .spelled hsp (List.prefix_append _ _) ?_
    intro k u hu hp
    obtain ⟨a, r, rfl⟩ := List.exists_cons_of_ne_nil hu.ne_nil
    obtain ⟨b, w, hw⟩ := List.exists_cons_of_ne_nil hsp.ne_nil
    have hab : a = b := by
      obtain ⟨v, hv⟩ := hp
      rw [hw] at hv
      exact (List.cons.inj hv).1
    subst hab
    rw [hw] at hsp
    rcases hu.leads with hl | ⟨hl, hm⟩
    · rcases hsp.leads with hl' | ⟨hl', -⟩
      · rw [hl, Option.some.injEq] at hl'
        subst hl'
        exact ⟨ht.longest_of_kind hs hu hp hk, fun _ => rfl⟩
      · rw [hl] at hl'
        cases hl'
    · rcases hsp.leads with hl' | ⟨-, hm'⟩
      · rw [hl] at hl'
        cases hl'
      · rw [← hw] at hm'
        exact Stops.signs hs hm' hm hp

end Token

/-- The tokens of `s`, each with the place it was found at, as the longest that the
grammar allows. -/
structure Munched (s : Text) (ps : List Placed) : Prop where
  /-- In order and apart from each other. -/
  apart : ps.Pairwise fun p q => p.stop ≤ q.start
  /-- Between characters of `s`, and the longest token from where it starts. -/
  longest : ∀ p ∈ ps, ∃ before after, s = before ++ p.token.text ++ after ∧
    p.start = Text.size before ∧ p.stop = Text.size (before ++ p.token.text) ∧
    p.token.Longest (p.token.text ++ after)
  /-- Not empty, and no gap in front. -/
  starts : ∀ p ∈ ps, ∃ c r, p.token.text = c :: r ∧ Token.isGapChar c = false
  /-- What no token covers is a gap. -/
  covered : ∀ before c after, s = before ++ c :: after → Token.isGapChar c = true ∨
    ∃ p ∈ ps, p.start ≤ Text.size before ∧ Text.size (before ++ [c]) ≤ p.stop
  /-- With the gaps between them the tokens give `s` back. -/
  restored : ∃ (ls : List Lexeme) (tail : Text), s = ls.flatMap Lexeme.text ++ tail ∧
    ls.map Lexeme.token = ps.map Placed.token ∧ (∀ l ∈ ls, IsGap l.gap) ∧ IsGap tail

theorem place_tokens (offset : Nat) (ls : List Lexeme) :
    (place offset ls).map Placed.token = ls.map Lexeme.token := by
  induction ls generalizing offset with
  | nil => rfl
  | cons l ls ih => simp [place, ih]

theorem offset_le_of_mem_place {offset : Nat} {ls : List Lexeme} {p : Placed}
    (h : p ∈ place offset ls) : offset ≤ p.start ∧ p.start ≤ p.stop := by
  induction ls generalizing offset with
  | nil => cases h
  | cons l ls ih =>
    rcases List.mem_cons.mp h with rfl | h
    · simp
    · have := ih h
      omega

theorem place_apart (offset : Nat) (ls : List Lexeme) :
    (place offset ls).Pairwise fun p q => p.stop ≤ q.start := by
  induction ls generalizing offset with
  | nil => exact .nil
  | cons l ls ih => exact .cons (fun p hp => (offset_le_of_mem_place hp).1) (ih _)

theorem longest_of_mem_place {ls : List Lexeme} {tail : Text} (hf : Fit ls tail) {p : Placed}
    {offset : Nat} (h : p ∈ place offset ls) :
    ∃ before after, ls.flatMap Lexeme.text ++ tail = before ++ p.token.text ++ after ∧
      p.start = offset + Text.size before ∧
      p.stop = offset + Text.size (before ++ p.token.text) ∧
      p.token.Longest (p.token.text ++ after) := by
  induction ls generalizing offset with
  | nil => cases h
  | cons l ls ih =>
    obtain ⟨-, hform, hstop, hrest⟩ := hf
    rcases List.mem_cons.mp h with rfl | h
    · exact ⟨l.gap, ls.flatMap Lexeme.text ++ tail, by simp [Lexeme.text], rfl,
        by simp; omega, hform.longest hstop⟩
    · obtain ⟨before, after, he, hstart, hend, hl⟩ := ih hrest h
      refine ⟨l.text ++ before, after, by simp [he], ?_, ?_, hl⟩
      · simp [hstart, Lexeme.text]
        omega
      · simp [hend, Lexeme.text]
        omega

theorem place_covers (offset : Nat) {ls : List Lexeme} {tail : Text}
    (hg : ∀ l ∈ ls, IsGap l.gap) (ht : IsGap tail) {before after : Text} {c : Char}
    (h : ls.flatMap Lexeme.text ++ tail = before ++ c :: after) :
    Token.isGapChar c = true ∨ ∃ p ∈ place offset ls,
      p.start ≤ offset + Text.size before ∧ offset + Text.size (before ++ [c]) ≤ p.stop := by
  induction ls generalizing offset before with
  | nil => exact .inl (ht c (by simp [show tail = before ++ c :: after from h]))
  | cons l ls ih =>
    rw [List.flatMap_cons, Lexeme.text, List.append_assoc, List.append_assoc] at h
    rcases append_eq_append_cons h with ⟨m, hm⟩ | ⟨b, rfl, hb⟩
    · exact .inl (hg l (by simp) c (by simp [hm]))
    · rcases append_eq_append_cons hb with ⟨m, hm⟩ | ⟨b', rfl, hb'⟩
      · refine .inr ⟨_, List.mem_cons_self, ?_, ?_⟩
        · simp
        · simp [hm]
          omega
      · rcases ih _ (fun l hl => hg l (by simp [hl])) hb' with hc | ⟨p, hp, hstart, hend⟩
        · exact .inl hc
        · refine .inr ⟨p, List.mem_cons_of_mem _ hp, ?_, ?_⟩
          · simp
            omega
          · simp at hend ⊢
            omega

/-- The tokenizer reads off the longest token each time and loses nothing between them. -/
theorem tokenize_munched {s : Text} {ps : List Placed} (h : tokenize s = .ok ps) :
    Munched s ps := by
  unfold tokenize at h
  cases hs : scan s with
  | error e =>
    rw [hs] at h
    cases h
  | ok found =>
    rw [hs] at h
    simp only [Except.map, Except.ok.injEq] at h
    subst h
    obtain ⟨rfl, hf, ht⟩ := scan_eq_ok_iff.mp hs
    obtain ⟨ls, tail⟩ := found
    have hg : ∀ l ∈ ls, IsGap l.gap := fun l => hf.gap_of_mem
    refine ⟨place_apart 0 ls, ?_, ?_, ?_, ls, tail, rfl, (place_tokens 0 ls).symm, hg, ht⟩
    · intro p hp
      obtain ⟨before, after, he, hstart, hend, hl⟩ := longest_of_mem_place hf hp
      exact ⟨before, after, he, by simpa using hstart, by simpa using hend, hl⟩
    · intro p hp
      have hm : p.token ∈ ls.map Lexeme.token := by
        rw [← place_tokens 0 ls]
        exact List.mem_map_of_mem hp
      obtain ⟨l, hl, he⟩ := List.mem_map.mp hm
      rw [← he]
      obtain ⟨c, r, hc, hgc, -⟩ := Token.read?_append (hf.formed_of_mem hl) (.of_breaks breaks_nil)
      exact ⟨c, r, by simpa using hc, hgc⟩
    · intro before c after he
      simpa using place_covers 0 hg ht he

/-- `<=` is not cut into `<` and `=`, and the literal takes in the quote doubled in it. -/
theorem tokenize_munched_doubled :
    tokenize "A <='x'''".toList = .ok [⟨⟨.word, ['A']⟩, 0, 1⟩,
      ⟨⟨.lessEquals, ['<', '=']⟩, 2, 4⟩, ⟨⟨.literal, "'x'''".toList⟩, 4, 9⟩] ∧
    Munched "A <='x'''".toList [⟨⟨.word, ['A']⟩, 0, 1⟩,
      ⟨⟨.lessEquals, ['<', '=']⟩, 2, 4⟩, ⟨⟨.literal, "'x'''".toList⟩, 4, 9⟩] :=
  ⟨by decide +kernel, tokenize_munched (by decide +kernel)⟩

end WhereFilter
