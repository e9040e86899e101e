import WhereFilter.Proofs.Token.Fit

namespace WhereFilter

open Token

def isQuote (c : Char) : Bool :=
  c == '\'' || c == '"'

/-- A class of characters that leaves out both quotes has none of them. -/
theorem not_of_isQuote {p : Char → Bool} {q : Char} (hq : isQuote q = true)
    (hsingle : p '\'' = false) (hdouble : p '"' = false) : p q = false := by
  simp only [isQuote, Bool.or_eq_true, beq_iff_eq] at hq
  rcases hq with rfl | rfl
  · exact hsingle
  · exact hdouble

theorem not_isQuote_of {p : Char → Bool} {c : Char} (hc : p c = true) (hsingle : p '\'' = false)
    (hdouble : p '"' = false) : isQuote c = false := by
  by_contra hq
  rw [not_of_isQuote (by simpa using hq) hsingle hdouble] at hc
  cases hc

theorem IsGap.not_isQuote {g : Text} (hg : IsGap g) : ∀ c ∈ g, isQuote c = false :=
  fun c hc => not_isQuote_of (hg c hc) rfl rfl

namespace Token

theorem isNameChar_of_isNameStart {c : Char} (h : isNameStart c = true) : isNameChar c = true := by
  simp only [isNameStart, isNameChar, Char.isAlphanum, Bool.or_eq_true] at h ⊢
  exact h.imp_left .inl

theorem not_isQuote_of_isNameChar {c : Char} (h : isNameChar c = true) : isQuote c = false :=
  not_isQuote_of h rfl rfl

end Token

/-- Two texts that differ only between quotes. The number counts where the right one closes
a double quote and opens another while the left one reads on. -/
inductive Alike : Nat → Text → Text → Prop
  | nil : Alike 0 [] []
  | plain {n : Nat} {c : Char} {s t : Text} (hc : isQuote c = false) (h : Alike n s t) :
      Alike n (c :: s) (c :: t)
  | unit {n : Nat} {q : Char} {x y s t : Text} (hq : isQuote q = true) (hx : Paired q x)
      (hy : Paired q y) (h : Alike n s t) : Alike n (q :: x ++ q :: s) (q :: y ++ q :: t)
  | split {n : Nat} {y s t : Text} (hy : Paired '"' y) (h : Alike n ('"' :: s) ('"' :: t)) :
      Alike (n + 1) ('"' :: s) ('"' :: y ++ '"' :: ' ' :: '"' :: t)

namespace Alike

variable {m n : Nat} {q : Char} {s t u v : Text}

theorem append (h : Alike m u v) (h' : Alike n s t) : Alike (m + n) (u ++ s) (v ++ t) := by
  induction h with
  | nil => simpa using h'
  | plain hc _ ih => exact .plain hc ih
  | unit hq hx hy _ ih =>
    have hu := Alike.unit hq hx hy ih
    simpa using hu
  | @split k y a b hy _ ih =>
    have hs := Alike.split hy ih
    rw [Nat.add_right_comm] at hs
    simpa using hs

theorem refl (h : ∀ c ∈ s, isQuote c = false) : Alike 0 s s := by
  induction s with
  | nil => exact .nil
  | cons c s ih => exact .plain (h c (by simp)) (ih fun a ha => h a (List.mem_cons_of_mem c ha))

theorem head?_eq (h : Alike n s t) : s.head? = t.head? := by
  cases h <;> rfl

/-- What stands in the first unit on the left may grow. -/
theorem widen {z : Text} (hz : Paired '"' z) (h : Alike n ('"' :: s) ('"' :: t)) :
    Alike n ('"' :: (z ++ s)) ('"' :: t) := by
  generalize hs : '"' :: s = a at h
  generalize ht : '"' :: t = b at h
  induction h generalizing t with
  | nil => cases hs
  | plain hc _ _ =>
    cases hs
    cases hc
  | unit hq hx hy h _ =>
    cases hs
    cases ht
    have hu := Alike.unit hq (hz.append hx) hy h
    simpa using hu
  | split hy _ ih =>
    cases hs
    cases ht
    exact .split hy (ih rfl rfl)

/-- What a quote opens ends at the same place on both sides, or earlier on the right. -/
theorem front_unit (h : Alike n (q :: s) t) (hq : isQuote q = true) :
    ∃ x y s' t', s = x ++ q :: s' ∧ t = q :: y ++ q :: t' ∧ Paired q x ∧ Paired q y ∧
      s'.head? ≠ some q ∧ t'.head? ≠ some q ∧
      (Alike n s' t' ∨
        ∃ m r, n = m + 1 ∧ q = '"' ∧ t' = ' ' :: '"' :: r ∧ Alike m (q :: s) ('"' :: r)) := by
  generalize ha : q :: s = a at h
  induction h generalizing s with
  | nil => cases ha
  | plain hc _ _ =>
    cases ha
    rw [hq] at hc
    cases hc
  | @unit n _ x y s₁ t₁ _ hx hy h ih =>
    simp only [List.cons_append, List.cons.injEq] at ha
    obtain ⟨rfl, rfl⟩ := ha
    by_cases hs : s₁.head? = some q
    · -- the unit ends in the first half of a pair and goes on behind it
      obtain ⟨s₂, rfl⟩ := List.head?_eq_some_iff.mp hs
      obtain ⟨x', y', s', t', rfl, rfl, hx', hy', hs', ht', hrest⟩ := ih rfl
      refine ⟨x ++ q :: q :: x', y ++ q :: q :: y', s', t', by simp, by simp,
        hx.append (.pair hx'), hy.append (.pair hy'), hs', ht', ?_⟩
      rcases hrest with hrest | ⟨m, r, hn, rfl, hr, hm⟩
      · exact .inl hrest
      · have hw := hm.widen (hx.append (.pair .nil))
        exact .inr ⟨m, r, hn, rfl, hr, by simpa using hw⟩
    · exact ⟨x, y, s₁, t₁, rfl, rfl, hx, hy, hs, h.head?_eq ▸ hs, .inl h⟩
  | @split n y s₁ t₁ hy h ih =>
    cases ha
    obtain ⟨x, _, s', _, rfl, _, hx, _, hs', _, _⟩ := ih rfl
    exact ⟨x, y, s', _, rfl, rfl, hx, hy, hs', by simp, .inr ⟨n, t₁, rfl, rfl, rfl, h⟩⟩

theorem of_cons {c : Char} (hc : isQuote c = false) (h : Alike n (c :: s) t) :
    ∃ t', t = c :: t' ∧ Alike n s t' := by
  generalize ha : c :: s = a at h
  cases h with
  | nil => cases ha
  | plain _ h =>
    cases ha
    exact ⟨_, rfl, h⟩
  | unit hq _ _ _ =>
    simp only [List.cons_append, List.cons.injEq] at ha
    rw [ha.1, hq] at hc
    cases hc
  | split _ _ =>
    cases ha
    cases hc

theorem of_append (hu : ∀ c ∈ u, isQuote c = false) (h : Alike n (u ++ s) t) :
    ∃ t', t = u ++ t' ∧ Alike n s t' := by
  induction u generalizing t with
  | nil => exact ⟨t, rfl, h⟩
  | cons c u ih =>
    obtain ⟨t₁, rfl, h₁⟩ := of_cons (hu c (by simp)) h
    obtain ⟨t', rfl, ht⟩ := ih (fun a ha => hu a (List.mem_cons_of_mem c ha)) h₁
    exact ⟨t', rfl, ht⟩

end Alike

/-- Quotes stand in quoted tokens only. -/
theorem Token.isQuote_of_formed {t : Token} (ht : t.Formed) (hl : t.kind ≠ .literal)
    (hq : t.kind ≠ .quoted) : ∀ c ∈ t.text, isQuote c = false := by
  have hdigit {w : Text} (hw : ∀ a ∈ w, a.isDigit = true) : ∀ c ∈ w, isQuote c = false :=
    fun c hc => not_isQuote_of_isNameChar (isNameChar_of_isDigit (hw c hc))
  obtain ⟨kind, text⟩ := t
  cases kind
  case word =>
    obtain ⟨c, r, rfl, hc, hr⟩ := ht
    intro a ha
    rcases List.mem_cons.mp ha with rfl | ha
    · exact not_isQuote_of_isNameChar (isNameChar_of_isNameStart hc)
    · exact not_isQuote_of_isNameChar (hr a ha)
  case number =>
    cases ht with
    | whole _ hw => exact hdigit hw
    | fraction _ hw _ hf =>
      intro a ha
      rcases List.mem_append.mp ha with ha | ha
      · exact hdigit hw a ha
      · rcases List.mem_cons.mp ha with rfl | ha
        · rfl
        · exact hdigit hf a ha
  case literal => exact absurd rfl hl
  case quoted => exact absurd rfl hq
  case other =>
    obtain ⟨c, rfl, hc⟩ := ht
    intro a ha
    rw [List.mem_singleton.mp ha]
    simp only [isOtherChar, Bool.not_eq_true', Bool.or_eq_false_iff] at hc
    simp_all [isQuote]
  all_goals
    simp only [Formed, signs, List.mem_cons, Prod.mk.injEq, reduceCtorEq, and_false, and_true,
      false_or, or_false, List.not_mem_nil] at ht
    subst ht
    simp [isQuote]

theorem Token.kind_of_head {t : Token} {c : Char} {r rest : Text} (ht : t.Formed)
    (he : c :: r = t.text ++ rest) (hc : isQuote c = false) :
    t.kind ≠ .literal ∧ t.kind ≠ .quoted := by
  obtain ⟨kind, text⟩ := t
  constructor
  all_goals
    rintro rfl
    obtain ⟨b, _, rfl⟩ := ht
    simp only [List.cons_append, List.cons.injEq] at he
    rw [he.1] at hc
    cases hc

/-- Only a quote can fail to be read. -/
theorem Token.exists_read? {c : Char} (r : Text) (hc : isQuote c = false) :
    ∃ t rest, read? c r = some (t, rest) := by
  simp only [isQuote, Bool.or_eq_false_iff, beq_eq_false_iff_ne] at hc
  unfold read?
  split
  · next found _ => exact ⟨found.1, found.2, rfl⟩
  · rw [if_neg hc.1, if_neg hc.2]
    split
    · exact ⟨_, _, rfl⟩
    · split <;> exact ⟨_, _, rfl⟩

theorem Alike.stops {n : Nat} {tok : Token} {s t : Text} (h : Alike n s t) (hs : tok.Stops s) :
    tok.Stops t := by
  have hh := h.head?_eq
  obtain ⟨kind, text⟩ := tok
  cases kind
  case number =>
    refine ⟨hh ▸ hs.1, hs.2.imp_right ?_⟩
    rintro hd d r rfl
    obtain ⟨s', rfl⟩ := List.head?_eq_some_iff.mp hh
    obtain ⟨t', ht, h'⟩ := h.of_cons rfl
    cases ht
    obtain ⟨s'', rfl⟩ := List.head?_eq_some_iff.mp h'.head?_eq
    exact hd d s'' rfl
  all_goals
    simp only [Stops, ← hh] at hs ⊢
    try exact hs

theorem tokensOf_unit {q : Char} (hq : isQuote q = true) :
    ∃ k, ∀ {x s : Text} {ts : List Token}, Paired q x → s.head? ≠ some q → tokensOf s = .ok ts →
      tokensOf (q :: x ++ q :: s) = .ok (⟨k, q :: x ++ [q]⟩ :: ts) := by
  simp only [isQuote, Bool.or_eq_true, beq_iff_eq] at hq
  rcases hq with rfl | rfl
  · refine ⟨.literal, ?_⟩
    intro x s ts hx hs h
    have ht := tokensOf_token_append (t := ⟨.literal, '\'' :: x ++ ['\'']⟩) ⟨x, hx, rfl⟩ hs h
    simpa using ht
  · refine ⟨.quoted, ?_⟩
    intro x s ts hx hs h
    have ht := tokensOf_token_append (t := ⟨.quoted, '"' :: x ++ ['"']⟩) ⟨x, hx, rfl⟩ hs h
    simpa using ht

/-- Both texts can be read, and each split on the right makes one token more. -/
theorem Alike.tokensOf {n : Nat} {s t : Text} (h : Alike n s t) :
    ∃ ss ts, tokensOf s = .ok ss ∧ tokensOf t = .ok ts ∧ ts.length = ss.length + n ∧
      (n = 0 → ts.map Token.kind = ss.map Token.kind) := by
  -- a split leaves the left text as it is, so the induction is on the right one
  induction hl : t.length using Nat.strongRecOn generalizing n s t with
  | _ len ih =>
    subst hl
    cases s with
    | nil =>
      cases h
      have he : WhereFilter.tokensOf [] = .ok [] := by
        rw [tokensOf_eq_ok_iff]
        exact ⟨[], [], rfl, trivial, by simp [IsGap], rfl⟩
      exact ⟨[], [], he, he, rfl, fun _ => rfl⟩
    | cons c s =>
      cases hq : isQuote c with
      | true =>
        obtain ⟨k, hunit⟩ := tokensOf_unit hq
        obtain ⟨x, y, s', t', rfl, rfl, hx, hy, hs', ht', hrest⟩ := h.front_unit hq
        rcases hrest with hrest | ⟨m, r, rfl, rfl, rfl, hm⟩
        · obtain ⟨ss, ts, hss, hts, hlen, hkind⟩ := ih _ (by simp; omega) hrest rfl
          refine ⟨_, _, hunit hx hs' hss, hunit hy ht' hts, by simp [hlen]; omega, ?_⟩
          intro hn
          simp [hkind hn]
        · obtain ⟨ss, ts, hss, hts, hlen, -⟩ := ih _ (by simp; omega) hm rfl
          have hgap : IsGap [' '] := by simp [IsGap, isGapChar]
          have hts' := tokensOf_gap_append hgap hts
          exact ⟨_, _, hss, hunit hy ht' hts', by simp [hlen]; omega, by simp⟩
      | false =>
        cases hg : isGapChar c with
        | true =>
          obtain ⟨t', rfl, ht⟩ := h.of_cons hq
          obtain ⟨ss, ts, hss, hts, hrest⟩ := ih _ (by simp) ht rfl
          have hgap : IsGap [c] := by simpa [IsGap] using hg
          exact ⟨ss, ts, tokensOf_gap_append hgap hss, tokensOf_gap_append hgap hts, hrest⟩
        | false =>
          obtain ⟨tok, rest, hr⟩ := Token.exists_read? s hq
          obtain ⟨htext, hform, hstop⟩ := (Token.read?_eq_some_iff hg).mp hr
          have hne := List.length_pos_iff.mpr (read?_ne_nil hr)
          have hplain : ∀ a ∈ tok.text, isQuote a = false := by
            have hkind := Token.kind_of_head hform htext hq
            exact Token.isQuote_of_formed hform hkind.1 hkind.2
          rw [htext] at h ⊢
          obtain ⟨t', rfl, ht⟩ := h.of_append hplain
          obtain ⟨ss, ts, hss, hts, hlen, hkind⟩ := ih _ (by simp; omega) ht rfl
          refine ⟨_, _, tokensOf_token_append hform hstop hss,
            tokensOf_token_append hform (ht.stops hstop) hts, by simp [hlen]; omega, ?_⟩
          intro hn
          simp [hkind hn]

end WhereFilter
