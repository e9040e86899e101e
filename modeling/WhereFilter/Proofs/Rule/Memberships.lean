import WhereFilter.Proofs.Layout.Lexemes
import WhereFilter.Proofs.Text.Turns

namespace WhereFilter

namespace Membership

/-- An item of a list: tokens that are no parentheses and no commas. -/
def IsItem (xs : List Lexeme) : Prop :=
  xs ≠ [] ∧ ∀ l ∈ xs, l.token.kind ≠ .parenLeft ∧ l.token.kind ≠ .parenRight ∧
    l.token.kind ≠ .comma

/-- What stands behind the parenthesis that opens a list, up to the one that closes it. -/
inductive Items : List Lexeme → List (List Lexeme) → Prop
  | last {item : List Lexeme} {close : Lexeme} : IsItem item → close.token.kind = .parenRight →
      Items (item ++ [close]) [item]
  | more {item xs : List Lexeme} {comma : Lexeme} {items : List (List Lexeme)} : IsItem item →
      comma.token.kind = .comma → Items xs items → Items (item ++ comma :: xs) (item :: items)

/-- A column with the list it is said to be in, or not to be in. -/
inductive Occurrence (column : Lexeme) : List Lexeme → (negated : Bool) → List (List Lexeme) → Prop
  | plain {word opens : Lexeme} {xs : List Lexeme} {items : List (List Lexeme)} :
      column.token.kind = .word → column.isWord "NOT".toList = false →
      word.isWord "IN".toList = true → opens.token.kind = .parenLeft → Items xs items →
      Occurrence column (column :: word :: opens :: xs) false items
  | negated {negation word opens : Lexeme} {xs : List Lexeme} {items : List (List Lexeme)} :
      column.token.kind = .word → column.isWord "NOT".toList = false →
      negation.isWord "NOT".toList = true → word.isWord "IN".toList = true →
      opens.token.kind = .parenLeft → Items xs items →
      Occurrence column (column :: negation :: word :: opens :: xs) true items

/-- A comparison of the column with each value. -/
def comparisons (column : Text) : (negated : Bool) → (values : List Text) → Text
  | false, values =>
    '(' :: " or ".toList.intercalate (values.map fun v => column ++ " eq ".toList ++ v) ++ [')']
  | true, values =>
    '(' :: " and ".toList.intercalate (values.map fun v => column ++ " neq ".toList ++ v) ++ [')']

/-- The value of an item is its text from the first token to the last, without the blanks that the
scanner takes for tokens. -/
def value (item : List Lexeme) : Text :=
  Text.trim (slice item)

/-- What becomes of the text of some tokens and `tail`: each occurrence, from the left, turns into
comparisons, and all else is kept. -/
inductive Expands (tail : Text) : List Lexeme → Text → Prop
  | done : Expands tail [] tail
  | occurrence {column : Lexeme} {xs rest : List Lexeme} {negated : Bool}
      {items : List (List Lexeme)} {t : Text} : Occurrence column xs negated items →
      Expands tail rest t →
      Expands tail (xs ++ rest)
        (column.gap ++ (comparisons column.token.text negated (items.map value) ++ t))
  | other {l : Lexeme} {ls : List Lexeme} {t : Text} :
      (∀ xs rest negated items, l :: ls = xs ++ rest → ¬Occurrence l xs negated items) →
      Expands tail ls t → Expands tail (l :: ls) (l.text ++ t)

section

variable {xs : List Lexeme} {items : List (List Lexeme)}

theorem Items.close (h : Items xs items) :
    ∃ ys close, xs = ys ++ [close] ∧ close.token.kind = .parenRight := by
  induction h with
  | @last item close _ hclose => exact ⟨item, close, rfl, hclose⟩
  | @more item xs comma items _ _ _ ih =>
    obtain ⟨ys, close, rfl, hclose⟩ := ih
    exact ⟨item ++ comma :: ys, close, by simp, hclose⟩

theorem Items.within (h : Items xs items) :
    ∀ item ∈ items, item <:+: xs := by
  induction h with
  | @last item close _ _ =>
    intro a ha
    rw [List.mem_singleton.mp ha]
    exact (List.prefix_append item [close]).isInfix
  | @more item xs comma items _ _ _ ih =>
    intro a ha
    rcases List.mem_cons.mp ha with rfl | ha
    · exact (List.prefix_append a (comma :: xs)).isInfix
    · exact (ih a ha).trans ⟨item ++ [comma], [], by simp⟩

theorem Occurrence.cases {column : Lexeme} {negated : Bool}
    (h : Occurrence column xs negated items) :
    column.token.kind = .word ∧ (∃ ys close, xs = column :: ys ++ [close] ∧
      close.token.kind = .parenRight) ∧ ∀ item ∈ items, item <:+: xs := by
  cases h with
  | @plain word opens xs _ hk _ _ _ hitems =>
    obtain ⟨ys, close, rfl, hclose⟩ := hitems.close
    exact ⟨hk, ⟨word :: opens :: ys, close, rfl, hclose⟩, fun item hm =>
      (hitems.within item hm).trans ⟨[column, word, opens], [], by simp⟩⟩
  | @negated negation word opens xs _ hk _ _ _ _ hitems =>
    obtain ⟨ys, close, rfl, hclose⟩ := hitems.close
    exact ⟨hk, ⟨negation :: word :: opens :: ys, close, rfl, hclose⟩, fun item hm =>
      (hitems.within item hm).trans ⟨[column, negation, word, opens], [], by simp⟩⟩

end

section

/-! An item `cur` has been read so far, and `l` comes next. -/

variable {cur ls : List Lexeme} {l : Lexeme}
  (hin : ∀ c ∈ cur, (!(c.is .parenLeft || c.is .parenRight)) = true)
  (hcomma : ∀ c ∈ cur, c.is .comma = false)

include hin in
theorem items?_of_open : items? cur = none := by
  have hdrop := List.dropWhile_eq_nil_iff.mpr hin
  unfold items?
  simp only [hdrop]

include hin hcomma in
theorem items?_stop (hl : (!(l.is .parenLeft || l.is .parenRight)) = false) :
    items? (cur ++ l :: ls) =
      if l.is .parenRight && !cur.isEmpty then some ([Text.trim (slice cur)], ls) else none := by
  have htake : (cur ++ l :: ls).takeWhile _ = _ := List.takeWhile_append_of_pos hin
  have hdrop : (cur ++ l :: ls).dropWhile _ = _ := List.dropWhile_append_of_pos hin
  rw [List.takeWhile_cons_of_neg (by simp [hl]), List.append_nil] at htake
  rw [List.dropWhile_cons_of_neg (by simp [hl])] at hdrop
  unfold items?
  simp only [hdrop, htake, cut_of_none hcomma]
  simp

include hin hcomma in
theorem items?_comma (hl : l.is .comma = true) :
    items? (cur ++ l :: ls) =
      if cur.isEmpty then none
      else (items? ls).map fun (items, rest) => (Text.trim (slice cur) :: items, rest) := by
  have hkind : l.token.kind = .comma := by simpa [Lexeme.is] using hl
  have hl' : (!(l.is .parenLeft || l.is .parenRight)) = true := by simp [Lexeme.is, hkind]
  have htake : (cur ++ l :: ls).takeWhile _ = _ := List.takeWhile_append_of_pos hin
  have hdrop : (cur ++ l :: ls).dropWhile _ = _ := List.dropWhile_append_of_pos hin
  rw [List.takeWhile_cons, hl', if_pos rfl] at htake
  rw [List.dropWhile_cons, hl', if_pos rfl] at hdrop
  unfold items?
  simp only [hdrop, htake, cut_append hcomma hl]
  cases ls.dropWhile fun l => !(l.is .parenLeft || l.is .parenRight) with
  | nil => simp
  | cons close rest =>
    simp only [List.all_cons]
    cases cur with
    | nil => simp
    | cons c cur =>
      simp only [List.isEmpty_cons, Bool.not_false, Bool.true_and, Bool.false_eq_true, if_false]
      split <;> rfl

end

theorem isItem_iff {xs : List Lexeme} : IsItem xs ↔ xs.isEmpty = false ∧
    (∀ l ∈ xs, (!(l.is .parenLeft || l.is .parenRight)) = true) ∧ ∀ l ∈ xs, l.is .comma = false := by
  simp only [IsItem, Lexeme.is, ← forall_and]
  simp [and_assoc]

/-- In front of the first parenthesis or comma stand the tokens of one item, or nothing. -/
theorem exists_front (ls : List Lexeme) : ∃ cur rest, ls = cur ++ rest ∧
    (∀ c ∈ cur, (!(c.is .parenLeft || c.is .parenRight)) = true) ∧
    (∀ c ∈ cur, c.is .comma = false) ∧
    (rest = [] ∨ ∃ l ls', rest = l :: ls' ∧
      (l.is .comma = true ∨ (!(l.is .parenLeft || l.is .parenRight)) = false)) := by
  induction ls with
  | nil => exact ⟨[], [], rfl, by simp, by simp, .inl rfl⟩
  | cons l ls ih =>
    by_cases hl : l.is .comma = true ∨ (!(l.is .parenLeft || l.is .parenRight)) = false
    · exact ⟨[], l :: ls, rfl, by simp, by simp, .inr ⟨l, ls, rfl, hl⟩⟩
    · obtain ⟨hcomma, hparen⟩ : l.is .comma = false ∧
          (!(l.is .parenLeft || l.is .parenRight)) = true := by simpa using hl
      obtain ⟨cur, rest, rfl, hin, hout, hrest⟩ := ih
      exact ⟨l :: cur, rest, rfl, List.forall_mem_cons.mpr ⟨hparen, hin⟩,
        List.forall_mem_cons.mpr ⟨hcomma, hout⟩, hrest⟩

theorem exists_items_of_items? {ls rest : List Lexeme} {values : List Text}
    (h : items? ls = some (values, rest)) :
    ∃ xs items, ls = xs ++ rest ∧ Items xs items ∧ values = items.map value := by
  induction hn : ls.length using Nat.strongRecOn generalizing ls rest values with
  | ind n ih =>
  subst hn
  obtain ⟨cur, behind, rfl, hin, hcomma, rfl | ⟨l, ls, rfl, hl⟩⟩ := exists_front ls
  · rw [List.append_nil, items?_of_open hin] at h
    cases h
  cases hlc : l.is .comma with
  | true =>
    rw [items?_comma hin hcomma hlc] at h
    split at h
    · cases h
    · next hempty =>
      obtain ⟨⟨values', rest'⟩, hrest, he⟩ := Option.map_eq_some_iff.mp h
      cases he
      obtain ⟨xs, items, rfl, hitems, rfl⟩ := ih ls.length (by simp; omega) hrest rfl
      have hitem : IsItem cur := isItem_iff.mpr ⟨by simpa using hempty, hin, hcomma⟩
      exact ⟨cur ++ l :: xs, cur :: items, by simp,
        .more hitem (by simpa [Lexeme.is] using hlc) hitems, rfl⟩
  | false =>
    have hparen : (!(l.is .parenLeft || l.is .parenRight)) = false :=
      hl.resolve_left (by simp [hlc])
    rw [items?_stop hin hcomma hparen] at h
    split at h
    · next hclose =>
      cases h
      rw [Bool.and_eq_true_iff] at hclose
      have hitem : IsItem cur := isItem_iff.mpr ⟨by simpa using hclose.2, hin, hcomma⟩
      exact ⟨cur ++ [l], [cur], by simp, .last hitem (by simpa [Lexeme.is] using hclose.1), rfl⟩
    · cases h

theorem Items.items?_append {xs : List Lexeme} {items : List (List Lexeme)} (h : Items xs items)
    (rest : List Lexeme) : items? (xs ++ rest) = some (items.map value, rest) := by
  induction h with
  | @last item close hitem hclose =>
    obtain ⟨hne, hin, hcomma⟩ := isItem_iff.mp hitem
    rw [List.append_assoc, List.singleton_append,
      items?_stop hin hcomma (by simp [Lexeme.is, hclose])]
    simp [Lexeme.is, hclose, hne, value]
  | @more item xs comma items hitem hc _ ih =>
    obtain ⟨hne, hin, hcomma⟩ := isItem_iff.mp hitem
    rw [List.append_assoc, List.cons_append, items?_comma hin hcomma (by simp [Lexeme.is, hc]), ih,
      hne]
    rfl

/-- The reader of a list finds the items that stand there, and no others. -/
theorem items?_eq_some_iff {ls rest : List Lexeme} {values : List Text} :
    items? ls = some (values, rest) ↔
      ∃ xs items, ls = xs ++ rest ∧ Items xs items ∧ values = items.map value := by
  constructor
  · exact exists_items_of_items?
  · rintro ⟨xs, items, rfl, hitems, rfl⟩
    exact hitems.items?_append rest

theorem not_isWord_not {l : Lexeme} (h : l.isWord "IN".toList = true) :
    l.isWord "NOT".toList = false := by
  simp only [Lexeme.isWord, Token.isWord, Bool.and_eq_true, beq_iff_eq] at h ⊢
  rw [h.2, Bool.and_eq_false_iff]
  exact .inr rfl

theorem behind?_eq_some_iff {column : Lexeme} {negated : Bool} {ls rest : List Lexeme}
    {m : Membership} : behind? column negated ls = some (m, rest) ↔
      ∃ word opens xs items, ls = word :: opens :: (xs ++ rest) ∧ word.isWord "IN".toList = true ∧
        opens.token.kind = .parenLeft ∧ Items xs items ∧
        m = ⟨column.gap, column.token.text, negated, items.map value⟩ := by
  constructor
  · intro h
    unfold behind? at h
    split at h
    · next word opens ls =>
      split at h
      · next hlist =>
        obtain ⟨⟨values, rest'⟩, hread, he⟩ := Option.map_eq_some_iff.mp h
        cases he
        obtain ⟨xs, items, rfl, hitems, rfl⟩ := items?_eq_some_iff.mp hread
        rw [Bool.and_eq_true_iff] at hlist
        exact ⟨word, opens, xs, items, rfl, hlist.1, by simpa [Lexeme.is] using hlist.2, hitems, rfl⟩
      · cases h
    · cases h
  · rintro ⟨word, opens, xs, items, rfl, hword, hopens, hitems, rfl⟩
    have hread : items? (xs ++ rest) = some (items.map value, rest) :=
      items?_eq_some_iff.mpr ⟨xs, items, rfl, hitems, rfl⟩
    simp only [behind?, hword, Lexeme.is, hopens, hread]
    rfl

/-- The pattern fits on occurrences, and on nothing else. -/
theorem pattern_eq_some_iff {back : Option Lexeme} {column : Lexeme} {ls rest : List Lexeme}
    {m : Membership} : pattern back (column :: ls) = some (m, rest) ↔
      ∃ xs negated items, column :: ls = xs ++ rest ∧ Occurrence column xs negated items ∧
        m = ⟨column.gap, column.token.text, negated, items.map value⟩ := by
  rw [pattern_cons]
  constructor
  · intro h
    split at h
    · cases h
    · next hcolumn =>
      have hcol : column.token.kind = .word ∧ column.isWord "NOT".toList = false := by
        simpa [Lexeme.is] using hcolumn
      split at h
      · next hnot =>
        obtain ⟨word, opens, xs, items, hls, hword, hopens, hitems, rfl⟩ :=
          behind?_eq_some_iff.mp h
        cases ls with
        | nil => cases hls
        | cons negation ls =>
          cases hls
          exact ⟨_, true, items, rfl,
            .negated hcol.1 hcol.2 (by simpa using hnot) hword hopens hitems, rfl⟩
      · obtain ⟨word, opens, xs, items, rfl, hword, hopens, hitems, rfl⟩ :=
          behind?_eq_some_iff.mp h
        exact ⟨_, false, items, rfl, .plain hcol.1 hcol.2 hword hopens hitems, rfl⟩
  · rintro ⟨xs, negated, items, he, hoccurs, rfl⟩
    have hcolumn (hkind : column.token.kind = .word) (hnot : column.isWord "NOT".toList = false) :
        (!column.is .word || column.isWord "NOT".toList) = false := by
      rw [hnot, Lexeme.is, hkind]
      rfl
    cases hoccurs with
    | @plain word opens xs _ hkind hnot hword hopens hitems =>
      obtain rfl : ls = word :: opens :: (xs ++ rest) := (List.cons.inj he).2
      have hread : behind? column false (word :: opens :: (xs ++ rest)) =
          some (⟨column.gap, column.token.text, false, items.map value⟩, rest) :=
        behind?_eq_some_iff.mpr ⟨word, opens, xs, items, rfl, hword, hopens, hitems, rfl⟩
      simp only [hcolumn hkind hnot, List.head?_cons, Option.any_some,
        not_isWord_not hword, Bool.false_eq_true, if_false, hread]
    | @negated negation word opens xs _ hkind hnot hneg hword hopens hitems =>
      obtain rfl : ls = negation :: word :: opens :: (xs ++ rest) := (List.cons.inj he).2
      have hread : behind? column true (word :: opens :: (xs ++ rest)) =
          some (⟨column.gap, column.token.text, true, items.map value⟩, rest) :=
        behind?_eq_some_iff.mpr ⟨word, opens, xs, items, rfl, hword, hopens, hitems, rfl⟩
      simp only [hcolumn hkind hnot, List.head?_cons, Option.any_some, hneg,
        Bool.false_eq_true, if_false, if_true, List.tail_cons, hread]

theorem text_eq_comparisons (gap column : Text) (negated : Bool) (values : List Text) :
    (⟨gap, column, negated, values⟩ : Membership).text =
      gap ++ comparisons column negated values := by
  cases negated <;> simp [text, comparisons]

variable {tail u : Text} {ls : List Lexeme}

theorem Expands.unique (h : Expands tail ls u) :
    u = pattern.render Lexeme.text text ls ++ tail := by
  induction h with
  | done => rfl
  | @occurrence column xs rest negated items t hoccurs _ ih =>
    have hxs : ∃ ys, xs = column :: ys := by cases hoccurs <;> exact ⟨_, rfl⟩
    obtain ⟨ys, rfl⟩ := hxs
    have hhit : pattern none ((column :: ys) ++ rest) = some (_, rest) :=
      pattern_eq_some_iff.mpr ⟨column :: ys, negated, items, rfl, hoccurs, rfl⟩
    rw [Pattern.render_of_hit (Pattern.segments_of_hit forward_pattern (by simp) hhit), ih,
      text_eq_comparisons]
    simp
  | @other l ls t hnone _ ih =>
    have hitem : pattern none (l :: ls) = none := by
      refine Option.eq_none_iff_forall_ne_some.mpr ?_
      rintro ⟨m, rest⟩ h
      obtain ⟨xs, negated, items, he, hoccurs, -⟩ := pattern_eq_some_iff.mp h
      exact hnone xs rest negated items he hoccurs
    rw [Pattern.render_of_item (Pattern.segments_of_none forward_pattern hitem), ih]
    simp

theorem expands_render (tail : Text) (ls : List Lexeme) :
    Expands tail ls (pattern.render Lexeme.text text ls ++ tail) := by
  induction hn : ls.length using Nat.strongRecOn generalizing ls with
  | ind n ih =>
  subst hn
  rcases Pattern.segments_cases forward_pattern advances_pattern ls with
    rfl | ⟨l, ls, rfl, hnone, hseg⟩ | ⟨m, front, rest, hn, rfl, hhit, hseg⟩
  · exact .done
  · rw [Pattern.render_of_item hseg, List.append_assoc]
    refine .other (fun xs rest negated items he hoccurs => ?_) (ih _ (by simp) ls rfl)
    rw [pattern_eq_some_iff.mpr ⟨xs, negated, items, he, hoccurs, rfl⟩] at hnone
    cases hnone
  · obtain ⟨column, front, rfl⟩ := List.exists_cons_of_ne_nil hn
    obtain ⟨xs, negated, items, he, hoccurs, rfl⟩ := pattern_eq_some_iff.mp hhit
    obtain rfl : xs = column :: front := List.append_cancel_right he.symm
    rw [Pattern.render_of_hit hseg, text_eq_comparisons, List.append_assoc, List.append_assoc]
    exact .occurrence hoccurs (ih _ (by simp) rest rfl)

/-- Of a text that can be read, each list is written out as comparisons with its values in order,
and nothing else changes. -/
theorem expandLists_expands {s : Text} {found : Scan} (hs : scan s = .ok found) :
    ∃ t, expandLists s = .ok t ∧ ∀ u, Expands found.tail found.lexemes u ↔ u = t := by
  refine ⟨_, by rw [expandLists, hs, Except.map], fun u => ⟨Expands.unique, ?_⟩⟩
  rintro rfl
  exact expands_render _ _

/-- The slice of each item is a piece of the text. -/
theorem Occurrence.items_in_text {s : Text} {found : Scan} (hs : scan s = .ok found)
    {column : Lexeme} {xs : List Lexeme} {negated : Bool} {items : List (List Lexeme)}
    (h : Occurrence column xs negated items) (hxs : xs <:+: found.lexemes) :
    ∀ item ∈ items, ∃ before after, s = before ++ slice item ++ after := by
  intro item hitem
  obtain ⟨-, -, hwithin⟩ := h.cases
  obtain ⟨front, back, he⟩ := (hwithin item hitem).trans hxs
  cases item with
  | nil => exact ⟨[], s, rfl⟩
  | cons l ls => exact ⟨_, _, slice_in_text hs (by rw [← he, List.append_assoc])⟩

/-- The tokens of `A IN(B(1))`, where one parenthesis opens inside the other. -/
def nestedCall : List Lexeme :=
  [⟨[], .word, ['A']⟩, ⟨[' '], .word, ['I', 'N']⟩, ⟨[], .parenLeft, ['(']⟩, ⟨[], .word, ['B']⟩,
    ⟨[], .parenLeft, ['(']⟩, ⟨[], .number, ['1']⟩, ⟨[], .parenRight, [')']⟩,
    ⟨[], .parenRight, [')']⟩]

def memberColumn : Lexeme :=
  ⟨[' '], .word, ['C']⟩

def memberItems : List (List Lexeme) :=
  [[⟨[], .number, ['2']⟩], [⟨[' '], .literal, "'x,)'".toList⟩, ⟨[' '], .word, ['D']⟩]]

/-- The tokens of ` C NOT IN(2, 'x,)' D)`. -/
def memberList : List Lexeme :=
  [memberColumn, ⟨[' '], .word, "NOT".toList⟩, ⟨[' '], .word, ['I', 'N']⟩, ⟨[], .parenLeft, ['(']⟩,
    ⟨[], .number, ['2']⟩, ⟨[], .comma, [',']⟩, ⟨[' '], .literal, "'x,)'".toList⟩,
    ⟨[' '], .word, ['D']⟩, ⟨[], .parenRight, [')']⟩]

/-- A list with a parenthesis in it stays as it was and the one behind it is written out; the
blank in front of an item is not in its slice. -/
theorem expandLists_expands_nested :
    ∃ found, scan "A IN(B(1)) C NOT IN(2, 'x,)' D)".toList = .ok found ∧
      expandLists "A IN(B(1)) C NOT IN(2, 'x,)' D)".toList =
        .ok "A IN(B(1)) (C neq 2 and C neq 'x,)' D)".toList ∧
      (∀ u, Expands found.tail found.lexemes u ↔
        u = "A IN(B(1)) (C neq 2 and C neq 'x,)' D)".toList) ∧
      Occurrence memberColumn memberList true memberItems ∧
      memberItems.map slice = ["2".toList, "'x,)' D".toList] ∧
      ∀ item ∈ memberItems, ∃ before after,
        "A IN(B(1)) C NOT IN(2, 'x,)' D)".toList = before ++ slice item ++ after := by
  have hs : scan "A IN(B(1)) C NOT IN(2, 'x,)' D)".toList = .ok ⟨nestedCall ++ memberList, []⟩ := by
    cbv
  have hexpanded : expandLists "A IN(B(1)) C NOT IN(2, 'x,)' D)".toList =
      .ok "A IN(B(1)) (C neq 2 and C neq 'x,)' D)".toList := by cbv
  obtain ⟨t, ht, hunique⟩ := expandLists_expands hs
  obtain rfl := Except.ok.inj (ht.symm.trans hexpanded)
  have hoccurs : Occurrence memberColumn memberList true memberItems :=
    .negated rfl (by decide) (by decide) (by decide) rfl (@Items.more [_] _ _ _ ⟨by simp, by decide⟩ rfl
      (@Items.last [_, _] _ ⟨by simp, by decide⟩ rfl))
  have hinfix : memberList <:+: nestedCall ++ memberList := (List.suffix_append _ _).isInfix
  exact ⟨_, hs, hexpanded, hunique, hoccurs, by decide, hoccurs.items_in_text hs hinfix⟩

end Membership

end WhereFilter
