import WhereFilter.Proofs.Token.Alike
import WhereFilter.Proofs.Text.Turns

namespace WhereFilter

/-- A text is a run and what follows it in one way only. -/
theorem run_inj {p : α → Bool} {l l' r r' : List α} (hl : ∀ a ∈ l, p a = true)
    (hr : r.head?.any p = false) (hl' : ∀ a ∈ l', p a = true) (hr' : r'.head?.any p = false)
    (h : l ++ r = l' ++ r') : l = l' ∧ r = r' := by
  obtain ⟨ht, hd⟩ := run_append hl hr
  obtain ⟨ht', hd'⟩ := run_append hl' hr'
  rw [h] at ht hd
  exact ⟨ht.symm.trans ht', hd.symm.trans hd'⟩

/-- Both texts look the same to a token that ends before them. -/
structure SameFront (s s' : Text) : Prop where
  head : s'.head? = s.head?
  fraction : ∀ d r', s' = '.' :: d :: r' → d.isDigit = true → ∃ r, s = '.' :: d :: r

theorem Token.Stops.of_front {t : Token} {s s' : Text} (hs : t.Stops s) (h : SameFront s s') :
    t.Stops s' := by
  obtain ⟨kind, text⟩ := t
  cases kind
  case number =>
    refine ⟨h.head ▸ hs.1, hs.2.imp_right ?_⟩
    intro hd d r' he
    by_contra hdigit
    obtain ⟨r, rfl⟩ := h.fraction d r' he (by simpa using hdigit)
    exact hdigit (hd d r rfl)
  case word | literal | quoted | equals | greater => simpa only [Stops, h.head] using hs
  case less => exact ⟨h.head ▸ hs.1, h.head ▸ hs.2⟩
  case other => exact fun ht => h.head ▸ hs ht
  all_goals exact trivial

namespace Token

theorem Formed.head {t : Token} (ht : t.Formed) : ∃ c r, t.text = c :: r ∧ isGapChar c = false := by
  have hs : t.Stops [] := .of_breaks breaks_nil
  obtain ⟨c, r, he, hc, -⟩ := read?_append ht hs
  exact ⟨c, r, by simpa using he, hc⟩

theorem not_isGapChar_of_isNameChar {c : Char} (h : isNameChar c = true) :
    isGapChar c = false := by
  cases hg : isGapChar c with
  | false => rfl
  | true =>
    have hb := isBreak_of_isGapChar hg
    rw [not_isBreak_of_isNameChar h] at hb
    cases hb

theorem Formed.word {text : Text} (h : Formed ⟨.word, text⟩) :
    text ≠ [] ∧ ∀ c ∈ text, isNameChar c = true := by
  obtain ⟨c, r, rfl, hc, hr⟩ := h
  exact ⟨by simp, List.forall_mem_cons.mpr ⟨isNameChar_of_isNameStart hc, hr⟩⟩

/-- What stands in quotes stands between two of one kind. -/
theorem Formed.eq_quotes {t : Token} (ht : t.Formed) {q : Char}
    (hq : t.kind = .literal ∧ q = '\'' ∨ t.kind = .quoted ∧ q = '"') :
    t.text = q :: t.contents ++ [q] := by
  obtain ⟨kind, text⟩ := t
  rcases hq with ⟨rfl, rfl⟩ | ⟨rfl, rfl⟩
  all_goals
    obtain ⟨b, -, rfl⟩ := ht
    simp [contents]

/-- Quotes close at the end. -/
theorem Formed.closes {t : Token} (ht : t.Formed) (hq : t.kind = .literal ∨ t.kind = .quoted)
    {u v : Text} (htext : t.text = u ++ v) (hv : v ≠ []) : ∃ q ∈ v, isQuote q = true := by
  obtain ⟨kind, text⟩ := t
  rcases hq with rfl | rfl
  all_goals
    obtain ⟨b, -, hb⟩ := ht
    have hlast := congrArg List.getLast? (htext.symm.trans hb)
    rw [List.getLast?_append_of_ne_nil _ hv, List.getLast?_concat] at hlast
    exact ⟨_, List.mem_of_getLast? hlast, rfl⟩

/-- Letters stand in words and in quotes only. -/
theorem Formed.of_letter {t : Token} (ht : t.Formed) {c : Char} (hc : c ∈ t.text)
    (hs : isNameStart c = true) : t.kind = .word ∨ t.kind = .literal ∨ t.kind = .quoted := by
  have hdigit {w : Text} (hw : ∀ a ∈ w, a.isDigit = true) : c ∉ w := by
    intro hm
    rw [digit_not_nameStart (hw c hm)] at hs
    cases hs
  obtain ⟨kind, text⟩ := t
  cases kind
  case word => exact .inl rfl
  case literal => exact .inr (.inl rfl)
  case quoted => exact .inr (.inr rfl)
  case number =>
    cases ht with
    | whole _ hw => exact absurd hc (hdigit hw)
    | fraction _ hw _ hf =>
      rcases List.mem_append.mp hc with hc | hc
      · exact absurd hc (hdigit hw)
      · rcases List.mem_cons.mp hc with rfl | hc
        · cases hs
        · exact absurd hc (hdigit hf)
  case other =>
    obtain ⟨a, rfl, ha⟩ := ht
    rw [List.mem_singleton.mp hc] at hs
    simp [isOtherChar, hs] at ha
  all_goals
    simp only [Formed, signs, List.mem_cons, Prod.mk.injEq, reduceCtorEq, and_false, and_true,
      false_or, or_false, List.not_mem_nil] at ht
    subst ht
    simp only [List.mem_cons, List.not_mem_nil, or_false] at hc
    rcases hc with rfl | rfl <;> cases hs

end Token

theorem tokensOf_lexeme_append {l : Lexeme} {s : Text} (hg : IsGap l.gap) (hf : l.token.Formed)
    (hs : l.token.Stops s) : tokensOf (l.text ++ s) =
      match tokensOf s with
      | .ok ts => .ok (l.token :: ts)
      | .error e => .error ⟨Text.size l.text + e.offset⟩ := by
  rw [tokensOf, scan_of_lexeme (step_append hg hf hs), tokensOf]
  cases scan s <;> rfl

theorem tokensOf_lexeme_append_iff {l : Lexeme} {s : Text} {t : Token} {ts : List Token}
    (hg : IsGap l.gap) (hf : l.token.Formed) (hs : l.token.Stops s) :
    tokensOf (l.text ++ s) = .ok (t :: ts) ↔ l.token = t ∧ tokensOf s = .ok ts := by
  rw [tokensOf_lexeme_append hg hf hs]
  cases tokensOf s <;> simp

theorem tokensOf_gap {g : Text} (hg : IsGap g) : tokensOf g = .ok [] := by
  rw [tokensOf, scan_of_done (step_gap hg)]
  rfl

/-- A text with tokens starts with white space and its first token. -/
theorem of_tokensOf_cons {s : Text} {t : Token} {ts : List Token} (h : tokensOf s = .ok (t :: ts)) :
    ∃ g rest, s = g ++ (t.text ++ rest) ∧ IsGap g ∧ t.Formed ∧ t.Stops rest ∧
      tokensOf rest = .ok ts := by
  obtain ⟨ls, tail, rfl, hfit, ht, hts⟩ := tokensOf_eq_ok_iff.mp h
  obtain ⟨l, ls, rfl, rfl, rfl⟩ := List.map_eq_cons_iff.mp hts
  refine ⟨l.gap, ls.flatMap Lexeme.text ++ tail, by simp [Lexeme.text], hfit.1, hfit.2.1,
    hfit.2.2.1, ?_⟩
  exact tokensOf_eq_ok_iff.mpr ⟨ls, tail, rfl, hfit.2.2.2, ht, rfl⟩

/-- Lexemes in front of a text are read as they are if each ends before what follows it. -/
theorem tokensOf_lexemes_append_iff {ls : List Lexeme} {s : Text} {ts : List Token}
    (hls : ∀ l ∈ ls, IsGap l.gap ∧ l.token.Formed) :
    tokensOf (ls.flatMap Lexeme.text ++ s) = .ok (ls.map Lexeme.token ++ ts) ↔
      Fit ls s ∧ tokensOf s = .ok ts := by
  induction ls with
  | nil => simp [Fit]
  | cons l ls ih =>
    simp only [List.mem_cons, forall_eq_or_imp] at hls
    obtain ⟨⟨hg, hf⟩, hls⟩ := hls
    rw [List.flatMap_cons, List.append_assoc, List.map_cons, List.cons_append, Fit]
    constructor
    · intro h
      obtain ⟨g, rest, he, hg', -, hs, hrest⟩ := of_tokensOf_cons h
      obtain ⟨c, r, hc, hgap⟩ := hf.head
      rw [Lexeme.text, List.append_assoc] at he
      obtain ⟨-, he⟩ := run_inj hg (by simpa [hc] using hgap) hg' (by simpa [hc] using hgap) he
      rw [← List.append_cancel_left he] at hs hrest
      obtain ⟨hfit, hts⟩ := (ih hls).mp hrest
      exact ⟨⟨hg, hf, hs, hfit⟩, hts⟩
    · rintro ⟨⟨-, -, hs, hfit⟩, hts⟩
      exact (tokensOf_lexeme_append_iff hg hf hs).mpr ⟨rfl, (ih hls).mpr ⟨hfit, hts⟩⟩

theorem sameFront_append {u : Text} (hn : u ≠ []) (hdot : u ≠ ['.']) (s s' : Text) :
    SameFront (u ++ s) (u ++ s') where
  head := by
    obtain ⟨c, u, rfl⟩ := List.exists_cons_of_ne_nil hn
    rfl
  fraction := by
    intro d r' he _
    match u with
    | [] => exact absurd rfl hn
    | [c] =>
      simp only [List.singleton_append, List.cons.injEq] at he
      exact absurd (congrArg ([·]) he.1) hdot
    | c :: e :: u =>
      simp only [List.cons_append, List.cons.injEq] at he
      exact ⟨u ++ s, by rw [he.1, he.2.1]; rfl⟩

/-- Only the last token looks at what follows, unless it could end a whole number. -/
theorem Fit.with_rest {xs : List Lexeme} {y : Lexeme} {rest rest' : Text}
    (h : Fit (xs ++ [y]) rest) (hdot : y.token.text ≠ ['.']) (hs : y.token.Stops rest') :
    Fit (xs ++ [y]) rest' := by
  induction xs with
  | nil => exact ⟨h.1, h.2.1, hs, trivial⟩
  | cons x xs ih =>
    rw [List.cons_append] at h ⊢
    obtain ⟨hg, hf, hstops, hfit⟩ := h
    have hy : y.token.text ≠ [] := by
      obtain ⟨c, r, hc, -⟩ := (hfit.formed_of_mem (l := y) (by simp)).head
      simp [hc]
    refine ⟨hg, hf, hstops.of_front (sameFront_append ?_ ?_ rest rest'), ih hfit⟩
    · simp [Lexeme.text, hy]
    · intro he
      rw [List.flatMap_append, List.flatMap_singleton, Lexeme.text, ← List.append_assoc] at he
      rcases List.append_eq_singleton_iff.mp he with ⟨-, h⟩ | ⟨-, h⟩
      · exact hdot h
      · exact hy h

/-- The tokens of a stretch, where the first has another gap, and of what follows it. -/
theorem tokensOf_slice_append {g rest : Text} {xs : List Lexeme} {ts : List Token} (hg : IsGap g)
    (hfit : Fit xs rest) (hrest : tokensOf rest = .ok ts) :
    tokensOf (g ++ (slice xs ++ rest)) = .ok (xs.map Lexeme.token ++ ts) := by
  cases xs with
  | nil => exact tokensOf_gap_append hg hrest
  | cons x xs =>
    obtain ⟨ls, tail, rfl, hls, htail, rfl⟩ := tokensOf_eq_ok_iff.mp hrest
    refine tokensOf_eq_ok_iff.mpr ⟨({ x with gap := g } :: xs) ++ ls, tail, ?_,
      fit_append.mpr ⟨hfit.with_gap hg, hls⟩, htail, by simp⟩
    simp [slice, Lexeme.text]

theorem Token.Stops.of_nameStart {t : Token} {c : Char} {r : Text} (hk : t.kind ≠ .word)
    (hc : Token.isNameStart c = true) : t.Stops (c :: r) := by
  have hne {a : Char} (ha : Token.isNameStart a = false) : (c :: r).head? ≠ some a := by
    intro h
    cases h
    rw [hc] at ha
    cases ha
  obtain ⟨kind, text⟩ := t
  cases kind
  case word => exact absurd rfl hk
  case number =>
    refine ⟨?_, .inr fun d r' he => ?_⟩
    · cases hd : c.isDigit with
      | false => simpa using hd
      | true =>
        rw [Token.digit_not_nameStart hd] at hc
        cases hc
    · cases he
      cases hc
  case literal | quoted | equals | greater => exact hne (by decide)
  case less => exact ⟨hne (by decide), hne (by decide)⟩
  case other => exact fun _ => hne (by decide)
  all_goals exact trivial

namespace Pattern

variable {p : Pattern α β} {item : α → List γ} {hit : β → List γ}

/-- Where no hit starts in `u`, each of its items is written on its own. -/
theorem renderFrom_of_quiet {back : Option α} {u s : List α}
    (h : ∀ v a w, u = v ++ a :: w → p (v.getLast?.or back) (a :: (w ++ s)) = none) :
    renderFrom p item hit back (u ++ s) =
      u.flatMap item ++ renderFrom p item hit (u.getLast?.or back) s := by
  induction u generalizing back with
  | nil => rfl
  | cons a u ih =>
    have hlast : ∀ v : List α, v.getLast?.or (some a) = ((a :: v).getLast?).or back := by
      intro v
      rw [List.getLast?_cons]
      cases v.getLast? <;> rfl
    have hnone : p back (a :: (u ++ s)) = none := h [] a u rfl
    rw [List.cons_append, renderFrom_of_none hnone, List.flatMap_cons, List.append_assoc, ← hlast]
    congr 1
    apply ih
    intro v b w he
    rw [hlast]
    exact h (a :: v) b w (by rw [he]; rfl)

end Pattern

end WhereFilter
