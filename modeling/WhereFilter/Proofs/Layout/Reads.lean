import WhereFilter.Proofs.Layout.Steady
import WhereFilter.Rule.Coalesce
import WhereFilter.Rule.Placeholder
import WhereFilter.Rule.Wrapped
import WhereFilter.Rule.YesNo

namespace WhereFilter

/-- What is read on behind a part and behind its image, where the parts are read alike. -/
theorem bind_map_eq {x : Option α} {F : α → α} {k k' : α → Option β} {G : β → β}
    (h : ∀ a, x = some a → k (F a) = (k' a).map G) : (x.map F).bind k = (x.bind k').map G := by
  cases x with
  | none => rfl
  | some a => exact h a rfl

theorem findSome?_map_eq {l : List α} {f f' : α → Option β} {G : β → β}
    (h : ∀ a ∈ l, f' a = (f a).map G) : l.findSome? f' = (l.findSome? f).map G := by
  induction l with
  | nil => rfl
  | cons a l ih =>
    simp only [List.mem_cons, forall_eq_or_imp] at h
    rw [List.findSome?_cons, List.findSome?_cons, h.1, ih h.2]
    cases f a <;> rfl

namespace Text

theorem not_isWordChar_of_isGapChar {c : Char} (hc : Token.isGapChar c = true) :
    isWordChar c = false :=
  Language.not_isWordChar_of_isBlank (Language.isBlank_of_isGapChar hc)

theorem solid_of_any {u : Text} (h : u.any Token.isGapChar = false) :
    ∀ c ∈ u, Token.isGapChar c = false := by
  simpa using h

theorem blind_isBlank : Blind isBlank := by
  intro c hc
  rw [Language.isBlank_of_isGapChar hc]
  rfl

theorem blind_not {p : Char → Bool} (hp : Blind p) : Blind fun c => !p c := by
  intro c hc
  show (!p c) = !p ' '
  rw [hp c hc]

theorem blind_isWordChar : Blind isWordChar := by
  intro c hc
  rw [not_isWordChar_of_isGapChar hc]
  rfl

theorem solid_of_word {u : Text} (hu : ∀ c ∈ u, isWordChar c = true) :
    ∀ c ∈ u, Token.isGapChar c = false :=
  blind_isWordChar.solid rfl hu

theorem solid_of_not_blank {u : Text} (hu : ∀ c ∈ u, isBlank c = false) :
    ∀ c ∈ u, Token.isGapChar c = false :=
  (blind_not blind_isBlank).solid rfl fun c hc => by rw [hu c hc]; rfl

theorem blind_ne {a : Char} (ha : Token.isGapChar a = false) : Blind fun c => decide (c ≠ a) := by
  have hne {c : Char} (hc : Token.isGapChar c = true) : decide (c ≠ a) = true := by
    rw [decide_eq_true_eq]
    rintro rfl
    rw [ha] at hc
    cases hc
  intro c hc
  exact (hne hc).trans (hne rfl).symm

/-! ### A squashed text is read as the text it comes from -/

theorem after?_squash {t : Text} (ht : ∀ c ∈ t, Token.isGapChar c = false) (s : Text) :
    after? t (squash s) = (after? t s).map squash := by
  induction t generalizing s with
  | nil => rfl
  | cons a t ih =>
    simp only [List.mem_cons, forall_eq_or_imp] at ht
    cases s with
    | nil => rfl
    | cons c s =>
      cases hc : Token.isGapChar c with
      | false =>
        rw [squash_solid hc, after?, after?]
        split
        · exact ih ht.2 s
        · rfl
      | true =>
        have hac : a ≠ c := by
          rintro rfl
          rw [ht.1] at hc
          cases hc
        have hspace : a ≠ ' ' := by
          rintro rfl
          cases ht.1
        rw [squash_gap hc, after?, after?, if_neg hac, if_neg hspace]
        rfl

/-- No gap character is a letter of a phrase in another case. -/
theorem foldCase_ne_of_isGapChar {a c : Char} (ha : Language.isPhraseChar a = true)
    (hc : Token.isGapChar c = true) : foldCase a ≠ foldCase c := by
  intro he
  have hphrase : Language.isPhraseChar c = true := by
    rw [Language.isPhraseChar, ← he]
    exact ha
  have hword := Language.isWordChar_of_isPhraseChar hphrase
  rw [not_isWordChar_of_isGapChar hc] at hword
  cases hword

theorem folded?_squash {w : Text} (hw : ∀ c ∈ w, Language.isPhraseChar c = true) (s : Text) :
    folded? w (squash s) = (folded? w s).map (Prod.map id squash) := by
  induction w generalizing s with
  | nil => rfl
  | cons a w ih =>
    simp only [List.mem_cons, forall_eq_or_imp] at hw
    cases s with
    | nil => rfl
    | cons c s =>
      cases hc : Token.isGapChar c with
      | false =>
        rw [squash_solid hc, folded?, folded?]
        split
        · rw [ih hw.2 s, Option.map_map, Option.map_map]
          rfl
        · rfl
      | true =>
        rw [squash_gap hc, folded?, folded?, if_neg (foldCase_ne_of_isGapChar hw.1 hc),
          if_neg (foldCase_ne_of_isGapChar hw.1 rfl)]
        rfl

theorem word?_squash (s : Text) : word? (squash s) = (word? s).map (Prod.map id squash) := by
  rw [word?, word?, takeWhile_squash_of_solid blind_isWordChar rfl,
    dropWhile_squash blind_isWordChar]
  cases s.takeWhile isWordChar <;> rfl

theorem skipBlanks_squash (s : Text) : skipBlanks (squash s) = squash (skipBlanks s) :=
  dropWhile_squash blind_isBlank s

theorem blanks?_squash (s : Text) :
    blanks? (squash s) = (blanks? s).map (Prod.map squash squash) := by
  rw [blanks?, blanks?, takeWhile_squash blind_isBlank, dropWhile_squash blind_isBlank]
  cases h : s.takeWhile isBlank with
  | nil => rfl
  | cons c g =>
    cases hs : squash (c :: g) with
    | nil =>
      cases hc : Token.isGapChar c with
      | false => simp [squash_solid hc] at hs
      | true => simp [squash_gap hc] at hs
    | cons d u => simp [hs]

theorem head?_squash_any {p : Char → Bool} (hp : Blind p) (s : Text) :
    (squash s).head?.any p = s.head?.any p := by
  cases s with
  | nil => rfl
  | cons c s =>
    cases hc : Token.isGapChar c with
    | false => simp [squash_solid hc]
    | true => simp [squash_gap hc, hp c hc]

/-! ### A gap at the end of a text is left over -/

theorem after?_pad {t : Text} (ht : ∀ c ∈ t, Token.isGapChar c = false) (s : Text) :
    after? t (pad s) = (after? t s).map pad := by
  induction t generalizing s with
  | nil => rfl
  | cons a t ih =>
    simp only [List.mem_cons, forall_eq_or_imp] at ht
    cases s with
    | nil =>
      have hspace : a ≠ ' ' := by
        rintro rfl
        cases ht.1
      simp [pad, after?, hspace]
    | cons c s =>
      rw [pad, List.cons_append, after?, after?]
      split
      · exact ih ht.2 s
      · rfl

theorem folded?_pad {w : Text} (hw : ∀ c ∈ w, Language.isPhraseChar c = true) (s : Text) :
    folded? w (pad s) = (folded? w s).map (Prod.map id pad) := by
  induction w generalizing s with
  | nil => rfl
  | cons a w ih =>
    simp only [List.mem_cons, forall_eq_or_imp] at hw
    cases s with
    | nil => simp [pad, folded?, foldCase_ne_of_isGapChar hw.1 (c := ' ') rfl]
    | cons c s =>
      rw [pad, List.cons_append, folded?, folded?]
      split
      · have h := ih hw.2 s
        rw [pad] at h
        rw [h, Option.map_map, Option.map_map]
        rfl
      · rfl

theorem word?_pad (s : Text) : word? (pad s) = (word? s).map (Prod.map id pad) :=
  word?_append s rfl

/-- Where nothing is read behind the last blank, one more makes no difference. -/
theorem dropWhile_pad {p : Char → Bool} (hp : p ' ' = true) (s : Text) :
    (pad s).dropWhile p = [] ∧ s.dropWhile p = [] ∨
      (pad s).dropWhile p = pad (s.dropWhile p) := by
  induction s with
  | nil => exact .inl (by simp [pad, hp])
  | cons c s ih =>
    cases hc : p c with
    | false => exact .inr (by simp [pad, hc])
    | true => simpa [pad, hc] using ih

theorem pad_behind {f : Text → Option β} {g : β → β} (hnil : f [] = none)
    (hpad : ∀ s, f (pad s) = (f s).map g) {p : Char → Bool} (hp : p ' ' = true) (s : Text) :
    f ((pad s).dropWhile p) = (f (s.dropWhile p)).map g := by
  rcases dropWhile_pad hp s with ⟨hl, hr⟩ | h
  · rw [hl, hr, hnil]
    rfl
  · rw [h, hpad]

/-- What is read behind blanks, where something must be read. -/
theorem bind_blanks?_pad {k : Text × Text → Option (β × Text)} (hnil : ∀ g, k (g, []) = none)
    (hpad : ∀ g s, k (g, pad s) = (k (g, s)).map (Prod.map id pad)) (s : Text) :
    (blanks? (pad s)).bind k = ((blanks? s).bind k).map (Prod.map id pad) := by
  rcases dropWhile_pad (p := isBlank) rfl s with ⟨hl, hr⟩ | h
  · have hnone (t : Text) (ht : t.dropWhile isBlank = []) : (blanks? t).bind k = none := by
      rw [blanks?, ht]
      cases t.takeWhile isBlank <;> simp [hnil]
    rw [hnone _ hl, hnone _ hr]
    rfl
  · have htake : (pad s).takeWhile isBlank = s.takeWhile isBlank := by
      have hp := List.takeWhile_append_dropWhile (p := isBlank) (l := pad s)
      have hs := List.takeWhile_append_dropWhile (p := isBlank) (l := s)
      rw [h, pad, pad, ← List.append_assoc, List.append_left_inj] at hp
      exact List.append_cancel_right (hp.trans hs.symm)
    rw [blanks?, blanks?, htake, h]
    cases s.takeWhile isBlank with
    | nil => rfl
    | cons c g => exact hpad _ _

end Text

end WhereFilter
