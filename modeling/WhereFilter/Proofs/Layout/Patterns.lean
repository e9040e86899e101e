import WhereFilter.Proofs.Layout.Reads
import WhereFilter.Proofs.Rule.Removal

namespace WhereFilter

open Text

theorem steady_placeholder : Placeholder.pattern.Steady id where
  gap hc := Placeholder.pattern_of_ne (by rintro rfl; cases hc)
  back _ := rfl
  solid {back s rest p} h := by
    refine ⟨'@' :: (if p.hashed then ['#'] else []) ++ p.name, '@', ?_, rfl⟩
    rw [Placeholder.text_of_pattern h, Placeholder.text]
    simp
  squash back s := by
    have hat := solid_of_any (u := ['@']) rfl
    have hhash := solid_of_any (u := ['#']) rfl
    simp only [Placeholder.pattern, Option.bind_eq_bind, after?_squash hat]
    refine bind_map_eq fun t _ => ?_
    rw [after?_squash hhash]
    cases after? ['#'] t with
    | none =>
      simp only [Option.map_none, word?_squash]
      refine bind_map_eq fun found _ => ?_
      simp only [Prod.map, after?_squash hat]
      exact bind_map_eq fun rest _ => rfl
    | some u =>
      simp only [Option.map_some, word?_squash]
      refine bind_map_eq fun found _ => ?_
      simp only [Prod.map, after?_squash hat]
      exact bind_map_eq fun rest _ => rfl
  pad back s := Placeholder.pattern_append back s rfl

theorem steady_coalesce : coalesce.Steady id where
  gap hc := by
    refine Language.coalesce_of_ne (fun he => ?_) _ _
    exact foldCase_ne_of_isGapChar (a := 'c') rfl hc he.symm
  back _ := rfl
  solid {back s rest name} h := by
    obtain ⟨word, b₁, b₂, b₃, m, rfl, -⟩ := of_coalesce h
    exact ⟨word ++ (b₁ ++ '(' :: (b₂ ++ (name ++ (b₃ ++ ',' :: m)))), ')', by simp, rfl⟩
  squash back s := by
    have hword : ∀ c ∈ "COALESCE".toList, Language.isPhraseChar c = true :=
      List.all_eq_true.mp rfl
    simp only [coalesce, Option.bind_eq_bind, folded?_squash hword]
    refine bind_map_eq fun found _ => ?_
    simp only [Prod.map, skipBlanks_squash, after?_squash (solid_of_any (u := ['(']) rfl)]
    refine bind_map_eq fun s _ => ?_
    simp only [skipBlanks_squash, word?_squash]
    refine bind_map_eq fun found _ => ?_
    simp only [Prod.map, skipBlanks_squash, after?_squash (solid_of_any (u := [',']) rfl)]
    refine bind_map_eq fun s _ => ?_
    have hquote := solid_of_any (u := ['\'']) rfl
    simp only [skipBlanks_squash, after?_squash hquote]
    refine bind_map_eq fun s _ => ?_
    simp only [dropWhile_squash (blind_ne (a := '\'') rfl), after?_squash hquote]
    refine bind_map_eq fun s _ => ?_
    simp only [skipBlanks_squash, after?_squash (solid_of_any (u := [')']) rfl)]
    exact bind_map_eq fun s _ => rfl
  pad back s := by
    have hword : ∀ c ∈ "COALESCE".toList, Language.isPhraseChar c = true :=
      List.all_eq_true.mp rfl
    have next {a : Char} (ha : [a].any Token.isGapChar = false) {p : Char → Bool} (hp : p ' ' = true)
        (s : Text) : after? [a] ((Text.pad s).dropWhile p) =
          (after? [a] (s.dropWhile p)).map Text.pad :=
      pad_behind rfl (after?_pad (solid_of_any ha)) hp s
    simp only [coalesce, Option.bind_eq_bind, folded?_pad hword, skipBlanks]
    refine bind_map_eq fun found _ => ?_
    simp only [Prod.map, next (a := '(') rfl (p := isBlank) rfl]
    refine bind_map_eq fun s _ => ?_
    simp only [pad_behind rfl word?_pad (p := isBlank) rfl]
    refine bind_map_eq fun found _ => ?_
    simp only [Prod.map, next (a := ',') rfl (p := isBlank) rfl]
    refine bind_map_eq fun s _ => ?_
    simp only [next (a := '\'') rfl (p := isBlank) rfl]
    refine bind_map_eq fun s _ => ?_
    simp only [next (a := '\'') rfl (p := fun c => decide (c ≠ '\'')) rfl]
    refine bind_map_eq fun s _ => ?_
    simp only [next (a := ')') rfl (p := isBlank) rfl]
    exact bind_map_eq fun s _ => rfl

namespace YesNo

theorem literal?_eq (s : Text) : literal? s =
    ((after? ['\'', 'Y', '\''] s).map (true, ·)).or
      ((after? ['\'', 'N', '\''] s).map (false, ·)) := by
  cases hy : after? ['\'', 'Y', '\''] s with
  | some rest =>
    rw [after?_eq_some.mp hy]
    rfl
  | none =>
    cases hn : after? ['\'', 'N', '\''] s with
    | some rest =>
      rw [after?_eq_some.mp hn]
      rfl
    | none =>
      cases hl : literal? s with
      | none => rfl
      | some found =>
        obtain ⟨holds, rest⟩ := found
        have hs := Language.literal?_eq_some.mp hl
        cases holds with
        | true =>
          have hsome : after? ['\'', 'Y', '\''] s = some rest := after?_eq_some.mpr hs
          rw [hy] at hsome
          cases hsome
        | false =>
          have hsome : after? ['\'', 'N', '\''] s = some rest := after?_eq_some.mpr hs
          rw [hn] at hsome
          cases hsome

theorem literal?_squash (s : Text) :
    literal? (squash s) = (literal? s).map (Prod.map id squash) := by
  rw [literal?_eq, literal?_eq, after?_squash (solid_of_any rfl), after?_squash (solid_of_any rfl)]
  cases after? ['\'', 'Y', '\''] s <;> cases after? ['\'', 'N', '\''] s <;> rfl

theorem literal?_pad (s : Text) : literal? (pad s) = (literal? s).map (Prod.map id pad) := by
  rw [literal?_eq, literal?_eq, after?_pad (solid_of_any rfl), after?_pad (solid_of_any rfl)]
  cases after? ['\'', 'Y', '\''] s <;> cases after? ['\'', 'N', '\''] s <;> rfl

theorem steady_comparison : comparison.Steady id where
  gap hc := Language.comparison_of_ne (by rintro rfl; cases hc) _ _
  back _ := rfl
  solid {back s rest agree} h := by
    simp only [comparison, Option.bind_eq_bind, Option.bind_eq_some_iff, Prod.exists,
      Option.some.injEq, Prod.mk.injEq] at h
    obtain ⟨a, s₁, ha, s₂, he, b, s₃, hb, rfl, rfl⟩ := h
    obtain ⟨g, -, rfl⟩ := of_dropWhile (after?_eq_some.mp he)
    obtain ⟨g', -, rfl⟩ := of_dropWhile (Language.literal?_eq_some.mp hb)
    exact ⟨'\'' :: Language.letterText a ++ '\'' :: g ++ '=' :: g' ++ '\'' :: Language.letterText b,
      '\'', by rw [Language.literal?_eq_some.mp ha]; simp, rfl⟩
  squash back s := by
    simp only [comparison, Option.bind_eq_bind, literal?_squash]
    refine bind_map_eq fun found _ => ?_
    simp only [Prod.map, skipBlanks_squash, after?_squash (solid_of_any (u := ['=']) rfl)]
    refine bind_map_eq fun s _ => ?_
    simp only [skipBlanks_squash, literal?_squash]
    exact bind_map_eq fun found _ => rfl
  pad back s := by
    simp only [comparison, Option.bind_eq_bind, literal?_pad, skipBlanks]
    refine bind_map_eq fun found _ => ?_
    simp only [Prod.map,
      pad_behind rfl (after?_pad (solid_of_any (u := ['=']) rfl)) (p := isBlank) rfl]
    refine bind_map_eq fun s _ => ?_
    simp only [pad_behind rfl literal?_pad (p := isBlank) rfl]
    exact bind_map_eq fun found _ => rfl

theorem operator?_squash (s : Text) :
    operator? (squash s) = (operator? s).map (Prod.map id squash) := by
  rw [operator?, operator?, after?_squash (solid_of_any rfl), after?_squash (solid_of_any rfl)]
  cases after? "neq".toList s with
  | some rest => rfl
  | none => cases after? "eq".toList s <;> rfl

theorem operator?_pad (s : Text) : operator? (pad s) = (operator? s).map (Prod.map id pad) := by
  rw [operator?, operator?, after?_pad (solid_of_any rfl), after?_pad (solid_of_any rfl)]
  cases after? "neq".toList s with
  | some rest => rfl
  | none => cases after? "eq".toList s <;> rfl

theorem steady_operand : operand.Steady id where
  gap {back c s} hc := by
    refine Language.operand_of_ne (fun hm => ?_) _ _
    have hsolid := solid_of_any (u := ['e', 'n']) rfl c hm
    rw [hc] at hsolid
    cases hsolid
  back h := by simp only [operand, h]
  solid {back s rest found} h := by
    obtain ⟨⟨op, holds⟩, rfl⟩ : ∃ hit, hit = found := ⟨_, rfl⟩
    obtain ⟨b, rfl, -⟩ := Language.of_operand h
    exact ⟨op ++ (b ++ '\'' :: Language.letterText holds), '\'', by simp, rfl⟩
  squash back s := by
    cases hb : back.any isWordChar with
    | true => simp [operand, hb]
    | false =>
      simp only [operand, hb, Bool.false_eq_true, if_false, Option.bind_eq_bind, operator?_squash]
      refine bind_map_eq fun found _ => ?_
      simp only [Prod.map, blanks?_squash]
      refine bind_map_eq fun found _ => ?_
      simp only [Prod.map, literal?_squash]
      exact bind_map_eq fun found _ => rfl
  pad back s := by
    cases hb : back.any isWordChar with
    | true => simp [operand, hb]
    | false =>
      simp only [operand, hb, Bool.false_eq_true, if_false, Option.bind_eq_bind, operator?_pad]
      refine bind_map_eq fun found _ => ?_
      refine bind_blanks?_pad (fun g => rfl) (fun g s => ?_) found.2
      simp only [Prod.map, literal?_pad]
      exact bind_map_eq fun found _ => rfl

end YesNo

namespace Wrapped

theorem lastClose?_text {s front back : Text} (h : lastClose? s = some (front, back)) :
    s = front ++ ')' :: back := by
  induction s generalizing front with
  | nil => cases h
  | cons c s ih =>
    unfold lastClose? at h
    split at h
    · next found hl =>
      cases h
      rw [ih hl, List.cons_append]
    · split at h
      · next hc =>
        cases h
        rw [hc, List.nil_append]
      · cases h

/-- An operand is solid, and so is what stands last before what follows it. -/
theorem of_operand? {s o rest : Text} (h : operand? s = some (o, rest)) :
    (∃ g, s = o ++ (g ++ ')' :: rest) ∧ ∀ c ∈ g, isBlank c = true) ∧ (∃ c t, o = c :: t) ∧
      ∀ c ∈ o, isBlank c = false := by
  have hs := List.takeWhile_append_dropWhile (p := fun c => !isBlank c) (l := s)
  unfold operand? at h
  split at h
  · cases h
  · next c run hrun =>
    have hblank : ∀ a ∈ c :: run, isBlank a = false := by
      intro a ha
      rw [← hrun] at ha
      simpa using holds_of_mem_takeWhile a ha
    rw [hrun] at hs
    dsimp only at h
    split at h
    · next t ht =>
      cases h
      obtain ⟨g, hgap, hg⟩ := of_dropWhile (after?_eq_some.mp ht)
      exact ⟨⟨g, by rw [← hs, hg]; rfl, hgap⟩, ⟨c, run, rfl⟩, hblank⟩
    · obtain ⟨⟨front, back⟩, hl, he⟩ := Option.map_eq_some_iff.mp h
      cases he
      have htext := lastClose?_text hl
      rw [htext] at hs hblank
      refine ⟨⟨[], hs.symm.trans (by simp), by simp⟩, ⟨c, front, rfl⟩, fun a ha => hblank a ?_⟩
      rw [← List.cons_append]
      exact List.mem_append_left _ ha

theorem operand?_squash (s : Text) : operand? (squash s) = (operand? s).map (Prod.map id squash) := by
  have hb : Blind fun c => !isBlank c := blind_not blind_isBlank
  unfold operand?
  simp only [takeWhile_squash_of_solid hb rfl, dropWhile_squash hb, skipBlanks_squash,
    after?_squash (solid_of_any (u := [')']) rfl)]
  cases hrun : s.takeWhile fun c => !isBlank c with
  | nil => rfl
  | cons c run =>
    cases after? [')'] (skipBlanks (s.dropWhile fun c => !isBlank c)) with
    | some rest => rfl
    | none =>
      cases hl : lastClose? run with
      | none => simp [hl]
      | some found =>
        obtain ⟨front, back⟩ := found
        have hback : ∀ a ∈ back, Token.isGapChar a = false := by
          refine hb.solid rfl fun a ha => ?_
          have hm : a ∈ c :: run := by rw [lastClose?_text hl]; simp [ha]
          rw [← hrun] at hm
          exact holds_of_mem_takeWhile a hm
        simp [hl, squash_append_of_solid hback]

theorem operand?_pad (s : Text) : operand? (pad s) = (operand? s).map (Prod.map id pad) := by
  obtain ⟨htake, hdrop⟩ := run_of_append (fun c => !isBlank c) s (s := [' ']) rfl
  unfold operand?
  simp only [pad, htake, hdrop]
  rw [skipBlanks, ← pad, pad_behind rfl (after?_pad (solid_of_any (u := [')']) rfl)) rfl]
  cases s.takeWhile fun c => !isBlank c with
  | nil => rfl
  | cons c run =>
    simp only [skipBlanks]
    cases after? [')'] ((s.dropWhile fun c => !isBlank c).dropWhile isBlank) with
    | some rest => rfl
    | none => cases lastClose? run <;> simp [pad]

/-- The gaps of a comparison stand between solid texts. -/
theorem squash_comparison (gap gap' : Text) {column t : Text} {c : Char}
    (hcolumn : ∀ a ∈ column, Token.isGapChar a = false)
    (hoperand : ∀ a ∈ c :: t, Token.isGapChar a = false) :
    squash (column ++ gap ++ "eq".toList ++ gap' ++ c :: t) =
      column ++ squash gap ++ "eq".toList ++ squash gap' ++ c :: t := by
  simp only [List.mem_cons, forall_eq_or_imp] at hoperand
  have hfront : squash (column ++ gap ++ 'e' :: 'q' :: gap') =
      column ++ squash gap ++ 'e' :: 'q' :: squash gap' := by
    rw [squash_append_solid rfl, squash_append_of_solid hcolumn, squash_solid rfl]
  have hsplit : column ++ gap ++ "eq".toList ++ gap' = column ++ gap ++ 'e' :: 'q' :: gap' := by simp
  rw [squash_append_solid hoperand.1, squash_of_solid hoperand.2, hsplit, hfront]
  simp

theorem steady_clause : clause.Steady squash where
  gap {back c s} hc := by
    have hne : '(' ≠ c := by
      rintro rfl
      cases hc
    simp [clause, after?, hne]
  back _ := rfl
  solid {back s rest text} h := by
    simp only [clause, Option.bind_eq_bind, Option.bind_eq_some_iff, Prod.exists,
      Option.some.injEq, Prod.mk.injEq] at h
    obtain ⟨s₁, h₁, column, s₂, h₂, gap, s₃, h₃, s₄, h₄, gap', s₅, h₅, operand, s₆, h₆, -, rfl⟩ := h
    obtain ⟨b, -, rfl⟩ := of_dropWhile (word?_text h₂)
    obtain ⟨⟨u, rfl, -⟩, -⟩ := of_operand? h₆
    rw [after?_eq_some.mp h₁, blanks?_text h₃, after?_eq_some.mp h₄, blanks?_text h₅]
    exact ⟨'(' :: (b ++ (column ++ (gap ++ ("eq".toList ++ (gap' ++ (operand ++ u)))))), ')',
      by simp, rfl⟩
  squash back s := by
    simp only [clause, Option.bind_eq_bind, after?_squash (solid_of_any (u := ['(']) rfl)]
    refine bind_map_eq fun s _ => ?_
    simp only [skipBlanks_squash, word?_squash]
    refine bind_map_eq fun column hcolumn => ?_
    simp only [Prod.map, blanks?_squash]
    refine bind_map_eq fun gap _ => ?_
    simp only [Prod.map, after?_squash (solid_of_any (u := "eq".toList) rfl)]
    refine bind_map_eq fun s _ => ?_
    simp only [blanks?_squash]
    refine bind_map_eq fun gap' _ => ?_
    simp only [Prod.map, operand?_squash]
    refine bind_map_eq fun operand hoperand => ?_
    obtain ⟨-, ⟨c, t, ht⟩, hblank⟩ := of_operand? hoperand
    rw [ht] at hblank
    have hwords := (word?_eq_some.mp hcolumn).2.2.1
    have h := squash_comparison gap.1 gap'.1 (solid_of_word hwords) (solid_of_not_blank hblank)
    simp only [Option.map_some, Prod.map, id, ht, h]
  pad back s := by
    simp only [clause, Option.bind_eq_bind, after?_pad (solid_of_any (u := ['(']) rfl), skipBlanks]
    refine bind_map_eq fun s _ => ?_
    simp only [pad_behind rfl word?_pad (p := isBlank) rfl]
    refine bind_map_eq fun found _ => ?_
    refine bind_blanks?_pad (fun g => rfl) (fun g s => ?_) found.2
    simp only [after?_pad (solid_of_any (u := "eq".toList) rfl)]
    refine bind_map_eq fun s _ => ?_
    refine bind_blanks?_pad (fun g => rfl) (fun g s => ?_) s
    simp only [operand?_pad]
    exact bind_map_eq fun found _ => rfl

end Wrapped

namespace Phrase

/-- Words spelled in letters, as those of the phrases are. -/
def Spelled (ws : List Text) : Prop :=
  ∀ w ∈ ws, w ≠ [] ∧ ∀ c ∈ w, Language.isPhraseChar c = true

theorem spelled_of_mem {ws : List Text} (h : ws ∈ unsupportedPhrases) : Spelled ws :=
  fun _ hw => ⟨Language.ne_nil_of_fold h hw rfl, Language.isPhraseChar_of_fold h hw rfl⟩

theorem Spelled.tail {w : Text} {ws : List Text} (h : Spelled (w :: ws)) : Spelled ws :=
  fun v hv => h v (List.mem_cons_of_mem w hv)

/-- A word read for a word of a phrase. -/
theorem of_folded? {w s v rest : Text} (hn : w ≠ []) (hw : ∀ c ∈ w, Language.isPhraseChar c = true)
    (h : folded? w s = some (v, rest)) : v ≠ [] ∧ ∀ c ∈ v, Token.isGapChar c = false := by
  obtain ⟨-, hfold⟩ := folded?_eq_some.mp h
  constructor
  · rintro rfl
    exact hn (List.map_eq_nil_iff.mp hfold.symm)
  · intro c hc
    have hm : foldCase c ∈ w.map foldCase := hfold ▸ List.mem_map_of_mem hc
    obtain ⟨a, ha, he⟩ := List.mem_map.mp hm
    cases hgap : Token.isGapChar c with
    | false => rfl
    | true => exact absurd he (foldCase_ne_of_isGapChar (hw a ha) hgap)

/-- Gaps stand only between the words of what is read. -/
theorem of_read? {ws : List Text} (hws : Spelled ws) (hn : ws ≠ []) {s m rest : Text}
    (h : read? ws s = some (m, rest)) :
    s = m ++ rest ∧ (∃ c t, m = c :: t ∧ Token.isGapChar c = false) ∧
      ∃ u d, m = u ++ [d] ∧ Token.isGapChar d = false := by
  have ends {w : Text} (hne : w ≠ []) (hw : ∀ c ∈ w, Token.isGapChar c = false) :
      (∃ c t, w = c :: t ∧ Token.isGapChar c = false) ∧
        ∃ u d, w = u ++ [d] ∧ Token.isGapChar d = false := by
    refine ⟨?_, w.dropLast, w.getLast hne, (List.dropLast_append_getLast hne).symm,
      hw _ (List.getLast_mem hne)⟩
    obtain ⟨c, t, rfl⟩ := List.exists_cons_of_ne_nil hne
    exact ⟨c, t, rfl, hw c (by simp)⟩
  induction ws generalizing s m with
  | nil => exact absurd rfl hn
  | cons w ws ih =>
    have hspell := hws w (by simp)
    cases ws with
    | nil =>
      obtain ⟨hne, hsolid⟩ := of_folded? hspell.1 hspell.2 h
      exact ⟨folded?_text h, ends hne hsolid⟩
    | cons w' ws =>
      simp only [read?, Option.bind_eq_bind, Option.bind_eq_some_iff, Prod.exists,
        Option.some.injEq, Prod.mk.injEq] at h
      obtain ⟨v, s₁, hv, gap, s₂, hgap, more, s₃, hmore, rfl, rfl⟩ := h
      obtain ⟨hne, hsolid⟩ := of_folded? hspell.1 hspell.2 hv
      obtain ⟨hs, -, u, d, rfl, hd⟩ := ih hws.tail (by simp) hmore
      obtain ⟨⟨c, t, rfl, hc⟩, -⟩ := ends hne hsolid
      refine ⟨?_, ⟨c, t ++ gap ++ (u ++ [d]), by simp, hc⟩, ⟨c :: t ++ gap ++ u, d, by simp, hd⟩⟩
      rw [folded?_text hv, blanks?_text hgap, hs]
      simp

theorem read?_squash {ws : List Text} (hws : Spelled ws) (s : Text) :
    read? ws (squash s) = (read? ws s).map (Prod.map squash squash) := by
  induction ws generalizing s with
  | nil => rfl
  | cons w ws ih =>
    have hspell := hws w (by simp)
    cases ws with
    | nil =>
      rw [read?, read?, folded?_squash hspell.2]
      cases h : folded? w s with
      | none => rfl
      | some found =>
        simp [Prod.map, squash_of_solid (of_folded? hspell.1 hspell.2 h).2]
    | cons w' ws =>
      simp only [read?, Option.bind_eq_bind, folded?_squash hspell.2]
      refine bind_map_eq fun word hword => ?_
      simp only [Prod.map, blanks?_squash]
      refine bind_map_eq fun gap _ => ?_
      simp only [Prod.map, ih hws.tail]
      refine bind_map_eq fun more hmore => ?_
      obtain ⟨-, ⟨c, t, ht, hc⟩, -⟩ := of_read? hws.tail (by simp) hmore
      have hsolid := (of_folded? hspell.1 hspell.2 hword).2
      simp only [Option.map_some, Prod.map, id, ht, squash_append_solid hc,
        squash_append_of_solid hsolid, squash_solid hc]

theorem read?_nil {ws : List Text} (hws : Spelled ws) (hn : ws ≠ []) : read? ws [] = none := by
  obtain ⟨w, ws, rfl⟩ := List.exists_cons_of_ne_nil hn
  obtain ⟨c, w, rfl⟩ := List.exists_cons_of_ne_nil (hws w (by simp)).1
  cases ws <;> rfl

theorem read?_pad {ws : List Text} (hws : Spelled ws) (s : Text) :
    read? ws (pad s) = (read? ws s).map (Prod.map id pad) := by
  induction ws generalizing s with
  | nil => rfl
  | cons w ws ih =>
    have hspell := hws w (by simp)
    cases ws with
    | nil => exact folded?_pad hspell.2 s
    | cons w' ws =>
      simp only [read?, Option.bind_eq_bind, folded?_pad hspell.2]
      refine bind_map_eq fun word _ => ?_
      refine bind_blanks?_pad (fun g => ?_) (fun g s => ?_) word.2
      · simp only [read?_nil hws.tail (by simp), Option.bind_none]
      · simp only [ih hws.tail]
        exact bind_map_eq fun more _ => rfl

theorem steady_unsupported : unsupported.Steady squash where
  gap {back c s} hc := by
    refine Language.unsupported_cons ?_ back s
    cases hphrase : Language.isPhraseChar c with
    | false => rfl
    | true => exact absurd rfl (foldCase_ne_of_isGapChar hphrase hc)
  back h := by simp only [unsupported, h]
  solid {back s rest phrase} h := by
    obtain ⟨-, -, ws, hws, hread⟩ := of_unsupported h
    obtain ⟨rfl, -, u, d, rfl, hd⟩ := of_read? (spelled_of_mem hws) (ne_nil_of_mem hws) hread
    exact ⟨u, d, by simp, hd⟩
  squash back s := by
    cases hb : back.any isWordChar with
    | true => simp [unsupported, hb]
    | false =>
      simp only [unsupported, hb, Bool.false_eq_true, if_false]
      refine findSome?_map_eq fun ws hws => ?_
      rw [read?_squash (spelled_of_mem hws)]
      cases read? ws s with
      | none => rfl
      | some found =>
        simp only [Option.map_some, Prod.map, head?_squash_any blind_isWordChar]
        split <;> rfl
  pad back s := by
    have hend (t : Text) : (pad t).head?.any isWordChar = t.head?.any isWordChar := by
      cases t <;> rfl
    cases hb : back.any isWordChar with
    | true => simp [unsupported, hb]
    | false =>
      simp only [unsupported, hb, Bool.false_eq_true, if_false]
      refine findSome?_map_eq fun ws hws => ?_
      rw [read?_pad (spelled_of_mem hws)]
      cases read? ws s with
      | none => rfl
      | some found =>
        simp only [Option.map_some, Prod.map, hend]
        split <;> rfl

end Phrase

end WhereFilter
