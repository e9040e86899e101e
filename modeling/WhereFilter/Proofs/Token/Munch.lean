import Mathlib
import WhereFilter.Token.Scan

namespace WhereFilter

/-- The longest run at the front is the part that `p` holds of, if nothing after it joins in. -/
theorem run_append {p : α → Bool} {l r : List α} (hl : ∀ a ∈ l, p a = true)
    (hr : r.head?.any p = false) :
    (l ++ r).takeWhile p = l ∧ (l ++ r).dropWhile p = r := by
  rw [List.takeWhile_append_of_pos hl, List.dropWhile_append_of_pos hl]
  cases r with
  | nil => simp
  | cons a r =>
    have ha : p a = false := by simpa using hr
    simp [ha]

/-- What `p` selects from the front ends where `p` fails. -/
theorem head?_dropWhile (p : α → Bool) (l : List α) : (l.dropWhile p).head?.any p = false := by
  have h := List.head?_dropWhile_not p l
  cases hd : (l.dropWhile p).head? with
  | none => rfl
  | some a => simpa [hd] using h

theorem holds_of_mem_takeWhile {p : α → Bool} {l : List α} :
    ∀ a ∈ l.takeWhile p, p a = true :=
  List.all_eq_true.mp List.all_takeWhile

theorem Text.after?_eq_none {lead t : Text} (h : ∀ rest, t ≠ lead ++ rest) :
    after? lead t = none := by
  cases ha : after? lead t with
  | none => rfl
  | some rest => exact absurd (after?_eq_some.mp ha) (h rest)

namespace Token

/-- Each run of `quote` in the text has even length. -/
inductive Paired (quote : Char) : Text → Prop
  | nil : Paired quote []
  | pair {b : Text} (h : Paired quote b) : Paired quote (quote :: quote :: b)
  | plain {c : Char} {b : Text} (hc : c ≠ quote) (h : Paired quote b) : Paired quote (c :: b)

theorem Paired.append {quote : Char} {a b : Text} (ha : Paired quote a) (hb : Paired quote b) :
    Paired quote (a ++ b) := by
  induction ha with
  | nil => exact hb
  | pair _ ih => exact .pair ih
  | plain hc _ ih => exact .plain hc ih

theorem Paired.of_not_mem {quote : Char} {b : Text} (h : quote ∉ b) : Paired quote b := by
  induction b with
  | nil => exact .nil
  | cons c b ih =>
    simp only [List.mem_cons, not_or] at h
    exact .plain (Ne.symm h.1) (ih h.2)

/-- A quote in a paired text is not alone, wherever the text is cut in front of it. -/
theorem Paired.cases_quote {quote : Char} {b : Text} (h : Paired quote (quote :: b)) :
    ∃ d, b = quote :: d ∧ Paired quote d := by
  cases h with
  | pair h => exact ⟨_, rfl, h⟩
  | plain hc _ => exact absurd rfl hc

theorem Paired.of_cons {quote c : Char} {b : Text} (hc : c ≠ quote) (h : Paired quote (c :: b)) :
    Paired quote b := by
  cases h with
  | pair _ => exact absurd rfl hc
  | plain _ h => exact h

/-- A body runs over paired quotes and stops at the first that stands alone. -/
theorem body?_append {quote : Char} {b rest : Text} (hb : Paired quote b)
    (hr : rest.head? ≠ some quote) :
    body? quote (b ++ quote :: rest) = some (b ++ [quote], rest) := by
  induction hb with
  | nil =>
    cases rest with
    | nil => simp [body?]
    | cons d r =>
      have hd : d ≠ quote := by simpa using hr
      simp [body?, hd]
  | pair _ ih => simp [body?, ih]
  | @plain c b hc hb ih =>
    cases hd : b ++ quote :: rest with
    | nil => simp at hd
    | cons d r =>
      rw [List.cons_append, hd, body?, if_neg hc, ← hd, ih]
      rfl

theorem of_body? {quote : Char} {s b rest : Text} (h : body? quote s = some (b, rest)) :
    ∃ d, b = d ++ [quote] ∧ Paired quote d ∧ rest.head? ≠ some quote := by
  fun_induction body? quote s generalizing b with
  | case1 => cases h
  | case2 =>
    simp only [Option.some.injEq, Prod.mk.injEq] at h
    obtain ⟨rfl, rfl⟩ := h
    exact ⟨[], by simp, .nil, by simp⟩
  | case3 => cases h
  | case4 r ih =>
    simp only [Option.map_eq_some_iff, Prod.exists, Prod.mk.injEq] at h
    obtain ⟨b', _, hb, rfl, rfl⟩ := h
    obtain ⟨d, rfl, hd, hr⟩ := ih hb
    exact ⟨_ :: _ :: d, rfl, .pair hd, hr⟩
  | case5 d r hd =>
    simp only [Option.some.injEq, Prod.mk.injEq] at h
    obtain ⟨rfl, rfl⟩ := h
    exact ⟨[], rfl, .nil, by simpa using hd⟩
  | case6 c d r hc ih =>
    simp only [Option.map_eq_some_iff, Prod.exists, Prod.mk.injEq] at h
    obtain ⟨b', _, hb, rfl, rfl⟩ := h
    obtain ⟨d', rfl, hd, hr⟩ := ih hb
    exact ⟨c :: d', rfl, .plain hc hd, hr⟩

/-- The fixed spellings by the characters they start with. -/
theorem sign?_eq (s : Text) : sign? s =
    match s with
    | '=' :: '=' :: r => some (⟨.doubleEquals, ['=', '=']⟩, r)
    | '=' :: r => some (⟨.equals, ['=']⟩, r)
    | '!' :: '=' :: r => some (⟨.bangEquals, ['!', '=']⟩, r)
    | '<' :: '>' :: r => some (⟨.notEquals, ['<', '>']⟩, r)
    | '<' :: '=' :: r => some (⟨.lessEquals, ['<', '=']⟩, r)
    | '<' :: r => some (⟨.less, ['<']⟩, r)
    | '>' :: '=' :: r => some (⟨.greaterEquals, ['>', '=']⟩, r)
    | '>' :: r => some (⟨.greater, ['>']⟩, r)
    | '(' :: r => some (⟨.parenLeft, ['(']⟩, r)
    | ')' :: r => some (⟨.parenRight, [')']⟩, r)
    | ',' :: r => some (⟨.comma, [',']⟩, r)
    | '.' :: r => some (⟨.dot, ['.']⟩, r)
    | '-' :: r => some (⟨.minus, ['-']⟩, r)
    | _ => none := by
  split
  case h_14 hee he hbe hne hle hl hge hg hopen hclose hcomma hdot hminus =>
    refine List.findSome?_eq_none_iff.mpr ?_
    simp only [signs, List.forall_mem_cons, Option.map_eq_none_iff, List.not_mem_nil,
      false_implies, implies_true, and_true]
    exact ⟨Text.after?_eq_none hee, Text.after?_eq_none he, Text.after?_eq_none hbe,
      Text.after?_eq_none hne, Text.after?_eq_none hle, Text.after?_eq_none hl,
      Text.after?_eq_none hge, Text.after?_eq_none hg, Text.after?_eq_none hopen,
      Text.after?_eq_none hclose, Text.after?_eq_none hcomma, Text.after?_eq_none hdot,
      Text.after?_eq_none hminus⟩
  case h_2 r hr =>
    have h : Text.after? ['=', '='] ('=' :: r) = none :=
      Text.after?_eq_none (by simpa using hr)
    simp only [sign?, signs, List.findSome?_cons, h]
    rfl
  case h_6 r hg he =>
    have h : Text.after? ['<', '>'] ('<' :: r) = none :=
      Text.after?_eq_none (by simpa using hg)
    have h' : Text.after? ['<', '='] ('<' :: r) = none :=
      Text.after?_eq_none (by simpa using he)
    simp only [sign?, signs, List.findSome?_cons, h, h']
    rfl
  case h_8 r hr =>
    have h : Text.after? ['>', '='] ('>' :: r) = none :=
      Text.after?_eq_none (by simpa using hr)
    simp only [sign?, signs, List.findSome?_cons, h]
    rfl
  all_goals rfl

/-- Digits, with a point and more digits behind them or not. -/
inductive Numeral : Text → Prop
  | whole {w : Text} (hn : w ≠ []) (hw : ∀ a ∈ w, a.isDigit = true) : Numeral w
  | fraction {w f : Text} (hn : w ≠ []) (hw : ∀ a ∈ w, a.isDigit = true)
      (hfn : f ≠ []) (hf : ∀ a ∈ f, a.isDigit = true) : Numeral (w ++ '.' :: f)

/-- A character that is a token of its own. -/
def isOtherChar (c : Char) : Bool :=
  !(isGapChar c || isNameStart c || c.isDigit ||
    ['=', '<', '>', '(', ')', ',', '.', '-', '\'', '"'].contains c)

/-- The texts that tokens of each kind have. -/
def Formed (t : Token) : Prop :=
  match t.kind with
  | .word => ∃ c r, t.text = c :: r ∧ isNameStart c = true ∧ ∀ a ∈ r, isNameChar a = true
  | .number => Numeral t.text
  | .literal => ∃ b, Paired '\'' b ∧ t.text = '\'' :: b ++ ['\'']
  | .quoted => ∃ b, Paired '"' b ∧ t.text = '"' :: b ++ ['"']
  | .other => ∃ c, t.text = [c] ∧ isOtherChar c = true
  | k => (t.text, k) ∈ signs

/-- Nothing at the front of `rest` joins the token. -/
def Stops (t : Token) (rest : Text) : Prop :=
  match t.kind with
  | .word => rest.head?.any isNameChar = false
  | .number => rest.head?.any Char.isDigit = false ∧
      ('.' ∈ t.text ∨ ∀ d r, rest = '.' :: d :: r → d.isDigit = false)
  | .literal => rest.head? ≠ some '\''
  | .quoted => rest.head? ≠ some '"'
  | .equals | .greater => rest.head? ≠ some '='
  | .less => rest.head? ≠ some '>' ∧ rest.head? ≠ some '='
  | .other => t.text = ['!'] → rest.head? ≠ some '='
  | _ => True

theorem digit_ne_dot {w : Text} (hw : ∀ a ∈ w, a.isDigit = true) : '.' ∉ w := by
  intro hm
  exact absurd (hw _ hm) (by decide)

theorem number_append {n rest : Text} (hn : Numeral n)
    (hs : Stops ⟨.number, n⟩ rest) : number (n ++ rest) = (n, rest) := by
  obtain ⟨hr, hd⟩ := hs
  cases hn with
  | whole hn hw =>
    obtain ⟨ht, hdr⟩ := run_append hw hr
    unfold number
    rw [ht, hdr]
    split
    · next d r =>
      have hf : d.isDigit = false :=
        (hd.resolve_left (digit_ne_dot hw)) d r rfl
      simp [hf]
    · rfl
  | @fraction w f _ hw hfn hf =>
    obtain ⟨d, f, rfl⟩ := List.exists_cons_of_ne_nil hfn
    have hd : d.isDigit = true := hf d (by simp)
    have hdot : ('.' :: (d :: f ++ rest)).head?.any Char.isDigit = false := rfl
    obtain ⟨ht, hdr⟩ := run_append hw hdot
    have hf' : ∀ a ∈ f, a.isDigit = true := fun a ha => hf a (List.mem_cons_of_mem _ ha)
    obtain ⟨ht', hdr'⟩ := run_append hf' hr
    unfold number
    simp only [List.append_assoc, List.cons_append] at ht hdr ⊢
    rw [ht, hdr]
    simp [hd, ht', hdr']

theorem numeral_number {c : Char} {r n rest : Text} (hc : c.isDigit = true)
    (h : number (c :: r) = (n, rest)) : Numeral n ∧ Stops ⟨.number, n⟩ rest := by
  have hw := holds_of_mem_takeWhile (p := Char.isDigit) (l := c :: r)
  have hwn : (c :: r).takeWhile Char.isDigit ≠ [] := by simp [hc]
  have hh := head?_dropWhile Char.isDigit (c :: r)
  unfold number at h
  split at h
  · next d r' hd =>
    split at h
    · next hdd =>
      simp only [Prod.mk.injEq] at h
      obtain ⟨rfl, rfl⟩ := h
      refine ⟨.fraction hwn hw (by simp) ?_, head?_dropWhile _ _, .inl (by simp)⟩
      intro a ha
      rcases List.mem_cons.mp ha with rfl | ha
      · exact hdd
      · exact holds_of_mem_takeWhile a ha
    · next hdd =>
      simp only [Prod.mk.injEq] at h
      obtain ⟨rfl, rfl⟩ := h
      refine ⟨.whole hwn hw, rfl, .inr ?_⟩
      intro d' r'' he
      simp only [List.cons.injEq, true_and] at he
      rw [← he.1]
      simpa using hdd
  · next hd =>
    simp only [Prod.mk.injEq] at h
    obtain ⟨rfl, rfl⟩ := h
    refine ⟨.whole hwn hw, hh, .inr ?_⟩
    intro d' r'' he
    exact absurd he (hd d' r'')

theorem formed_of_sign? {s rest : Text} {t : Token} (h : sign? s = some (t, rest)) :
    t.Formed ∧ t.Stops rest := by
  -- a later row of the table is reached only if the longer spellings before it do not fit
  have stops {a : Char} {r : Text} (hr : ∀ r', r = a :: r' → False) : r.head? ≠ some a := by
    intro hh
    obtain ⟨r', rfl⟩ := List.head?_eq_some_iff.mp hh
    exact hr r' rfl
  rw [sign?_eq] at h
  split at h
  case h_14 => cases h
  all_goals
    simp only [Option.some.injEq, Prod.mk.injEq] at h
    obtain ⟨rfl, rfl⟩ := h
    refine ⟨by simp [Formed, signs], ?_⟩
  case h_2 hr => exact stops hr
  case h_6 hr hr' => exact ⟨stops hr, stops hr'⟩
  case h_8 hr => exact stops hr
  all_goals exact trivial

theorem sign?_eq_none_of {c : Char} {r : Text}
    (hc : ['=', '<', '>', '(', ')', ',', '.', '-'].contains c = false)
    (hb : c = '!' → r.head? ≠ some '=') : sign? (c :: r) = none := by
  rw [sign?_eq]
  split
  case h_14 => rfl
  case h_3 he =>
    simp only [List.cons.injEq] at he
    obtain ⟨rfl, rfl⟩ := he
    exact absurd rfl (hb rfl)
  all_goals
    next he =>
      simp only [List.cons.injEq] at he
      obtain ⟨rfl, -⟩ := he
      exact absurd hc (by decide)

theorem of_sign?_eq_none {c : Char} {r : Text} (h : sign? (c :: r) = none) :
    ['=', '<', '>', '(', ')', ',', '.', '-'].contains c = false ∧
      (c = '!' → r.head? ≠ some '=') := by
  rw [sign?_eq] at h
  split at h
  case h_14 =>
    constructor
    · simp_all
    · rintro rfl hh
      obtain ⟨r', rfl⟩ := List.head?_eq_some_iff.mp hh
      simp_all
  all_goals cases h

/-- What `read?` finds is shaped as its kind asks, and nothing behind it joins in. -/
theorem formed_of_read? {c : Char} {r rest : Text} {t : Token} (hg : isGapChar c = false)
    (h : read? c r = some (t, rest)) : t.Formed ∧ t.Stops rest := by
  unfold read? at h
  split at h
  · next found hf =>
    simp only [Option.some.injEq] at h
    subst h
    exact formed_of_sign? hf
  · next hf =>
    obtain ⟨hs, hb⟩ := of_sign?_eq_none hf
    split at h
    · next hq =>
      subst hq
      simp only [Option.map_eq_some_iff, Prod.exists, Prod.mk.injEq] at h
      obtain ⟨b, _, hb, rfl, rfl⟩ := h
      obtain ⟨d, rfl, hd, hr⟩ := of_body? hb
      exact ⟨⟨d, hd, rfl⟩, hr⟩
    · split at h
      · next hq =>
        subst hq
        simp only [Option.map_eq_some_iff, Prod.exists, Prod.mk.injEq] at h
        obtain ⟨b, _, hb, rfl, rfl⟩ := h
        obtain ⟨d, rfl, hd, hr⟩ := of_body? hb
        exact ⟨⟨d, hd, rfl⟩, hr⟩
      · split at h
        · next hn =>
          simp only [Option.some.injEq, Prod.mk.injEq] at h
          obtain ⟨rfl, rfl⟩ := h
          exact ⟨⟨c, _, rfl, hn, holds_of_mem_takeWhile⟩, head?_dropWhile _ _⟩
        · split at h
          · next hd =>
            simp only [Option.some.injEq, Prod.mk.injEq] at h
            obtain ⟨rfl, rfl⟩ := h
            exact numeral_number hd rfl
          · next hq hq' hn hd =>
            simp only [Option.some.injEq, Prod.mk.injEq] at h
            obtain ⟨rfl, rfl⟩ := h
            refine ⟨⟨c, rfl, ?_⟩, ?_⟩
            · simp_all [isOtherChar]
            · intro he
              exact hb (by simpa using he)

theorem read?_of_sign? {c : Char} {r : Text} {found : Token × Text}
    (h : sign? (c :: r) = some found) : read? c r = some found := by
  unfold read?
  rw [h]

/-- The first character of a token that has no fixed spelling is none of these. -/
theorem sign?_of_start {c : Char} {r : Text} (hc : isNameStart c = true ∨ c.isDigit = true) :
    sign? (c :: r) = none ∧ c ≠ '\'' ∧ c ≠ '"' ∧ isGapChar c = false := by
  have hne (a : Char) (ha : isNameStart a = false ∧ a.isDigit = false) : c ≠ a := by
    rintro rfl
    rcases hc with hc | hc
    · exact absurd hc (by simp [ha.1])
    · exact absurd hc (by simp [ha.2])
  refine ⟨sign?_eq_none_of ?_ ?_, hne _ (by decide), hne _ (by decide), ?_⟩
  · simp [hne '=' (by decide), hne '<' (by decide), hne '>' (by decide), hne '(' (by decide),
      hne ')' (by decide), hne ',' (by decide), hne '.' (by decide), hne '-' (by decide)]
  · exact fun h => absurd h (hne _ (by decide))
  · simp [isGapChar, hne ' ' (by decide), hne '\t' (by decide), hne '\n' (by decide),
      hne '\x0c' (by decide), hne '\r' (by decide)]

theorem digit_not_nameStart {c : Char} (hc : c.isDigit = true) : isNameStart c = false := by
  have hne : c ≠ '_' := by
    rintro rfl
    exact absurd hc (by decide)
  grind [Char.isDigit, isNameStart, Char.isAlpha, Char.isUpper, Char.isLower]

/-- A token that stands as its kind asks is read whole. -/
theorem read?_append {t : Token} {rest : Text} (ht : t.Formed) (hs : t.Stops rest) :
    ∃ c r, t.text ++ rest = c :: r ∧ isGapChar c = false ∧ read? c r = some (t, rest) := by
  obtain ⟨kind, text⟩ := t
  cases kind
  case word =>
    obtain ⟨c, w, rfl, hc, hw⟩ := ht
    obtain ⟨hn, hq, hq', hg⟩ := sign?_of_start (r := w ++ rest) (.inl hc)
    obtain ⟨htake, hdrop⟩ := run_append hw hs
    refine ⟨c, w ++ rest, rfl, hg, ?_⟩
    simp only [read?, hn, hq, hq', hc, if_true, if_false, htake, hdrop]
  case number =>
    have hn := number_append ht hs
    obtain ⟨c, w, rfl, hc⟩ : ∃ c w, text = c :: w ∧ c.isDigit = true := by
      cases ht with
      | whole hne hw =>
        obtain ⟨c, w, rfl⟩ := List.exists_cons_of_ne_nil hne
        exact ⟨c, w, rfl, hw c (by simp)⟩
      | @fraction w f hne hw _ _ =>
        obtain ⟨c, w, rfl⟩ := List.exists_cons_of_ne_nil hne
        exact ⟨c, w ++ '.' :: f, rfl, hw c (by simp)⟩
    obtain ⟨hsn, hq, hq', hg⟩ := sign?_of_start (r := w ++ rest) (.inr hc)
    refine ⟨c, w ++ rest, rfl, hg, ?_⟩
    rw [List.cons_append] at hn
    simp [read?, hsn, hq, hq', digit_not_nameStart hc, hc, hn]
  case literal =>
    obtain ⟨b, hb, rfl⟩ := ht
    refine ⟨'\'', b ++ '\'' :: rest, by simp, by decide, ?_⟩
    unfold read?
    rw [sign?_eq_none_of (by decide) (by simp)]
    simp [body?_append hb hs]
  case quoted =>
    obtain ⟨b, hb, rfl⟩ := ht
    refine ⟨'"', b ++ '"' :: rest, by simp, by decide, ?_⟩
    unfold read?
    rw [sign?_eq_none_of (by decide) (by simp)]
    simp [body?_append hb hs]
  case other =>
    obtain ⟨c, rfl, hc⟩ := ht
    simp only [isOtherChar, Bool.not_eq_true', Bool.or_eq_false_iff] at hc
    have hsn : sign? (c :: rest) = none :=
      sign?_eq_none_of (by simp_all) (fun h => hs (by simp [h]))
    refine ⟨c, rest, rfl, by simp_all, ?_⟩
    simp_all [read?]
  all_goals
    simp only [Formed, signs, List.mem_cons, Prod.mk.injEq, reduceCtorEq, and_false, and_true,
      false_or, or_false, List.not_mem_nil] at ht
    subst ht
    refine ⟨_, _, rfl, by decide, read?_of_sign? ?_⟩
  case equals | less | greater =>
    rw [sign?_eq]
    split <;> simp_all [Stops]
  all_goals rfl

/-- A token's text is read as the token exactly where its kind allows it. -/
theorem read?_eq_some_iff {c : Char} {r rest : Text} {t : Token} (hg : isGapChar c = false) :
    read? c r = some (t, rest) ↔ c :: r = t.text ++ rest ∧ t.Formed ∧ t.Stops rest := by
  constructor
  · intro h
    exact ⟨read?_text h, formed_of_read? hg h⟩
  · rintro ⟨he, ht, hs⟩
    obtain ⟨c', r', he', -, h⟩ := read?_append ht hs
    rw [he', List.cons.injEq] at he
    obtain ⟨rfl, rfl⟩ := he
    exact h

end Token

end WhereFilter
