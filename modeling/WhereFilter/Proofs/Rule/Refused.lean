import WhereFilter.Proofs.Output.Outcome

namespace WhereFilter

namespace Pattern

variable {p : Pattern α β}

theorem Silent.eq_none {u v s : List α} (h : p.Silent none (u ++ v) s) (hv : v ≠ []) :
    p u.getLast? (v ++ s) = none := by
  obtain ⟨a, v, rfl⟩ := List.exists_cons_of_ne_nil hv
  have hsilent := (silent_append.mp h).2
  rw [Option.or_none] at hsilent
  exact hsilent.1

/-- Before the first hit there is none. -/
theorem silent_of_head?_hits {l : List α} {b : β} (h : (p.hits l).head? = some b) :
    ∃ u v rest, l = u ++ v ∧ p.Silent none u v ∧ p u.getLast? v = some (b, rest) := by
  rw [hits_eq_render] at h
  suffices hfrom : ∀ back, (renderFrom p (fun _ => []) (fun b => [b]) back l).head? = some b →
      ∃ u v rest, l = u ++ v ∧ p.Silent back u v ∧ p (u.getLast?.or back) v = some (b, rest) by
    obtain ⟨u, v, rest, hl, hu, hv⟩ := hfrom none h
    exact ⟨u, v, rest, hl, hu, by simpa using hv⟩
  clear h
  induction l with
  | nil => simp [renderFrom, segmentsFrom]
  | cons a l ih =>
    intro back h
    cases hp : p back (a :: l) with
    | some hit =>
      obtain ⟨c, rest⟩ := hit
      rw [renderFrom, segmentsFrom, hp] at h
      obtain rfl : c = b := by simpa using h
      exact ⟨[], a :: l, rest, rfl, trivial, hp⟩
    | none =>
      rw [renderFrom_of_none hp] at h
      obtain ⟨u, v, rest, rfl, hu, hv⟩ := ih (some a) h
      refine ⟨a :: u, v, rest, rfl, ⟨hp, hu⟩, ?_⟩
      rw [← hv, List.getLast?_cons]
      cases u.getLast? <;> rfl

end Pattern

theorem blanks?_append {g s : Text} (hg : g ≠ []) (hb : ∀ c ∈ g, isBlank c = true)
    (hs : s.head?.any isBlank = false) : Text.blanks? (g ++ s) = some (g, s) := by
  obtain ⟨htake, hdrop⟩ := run_append hb hs
  obtain ⟨c, g, rfl⟩ := List.exists_cons_of_ne_nil hg
  rw [Text.blanks?, htake, hdrop]

theorem of_blanks? {s g rest : Text} (h : Text.blanks? s = some (g, rest)) :
    g ≠ [] ∧ ∀ c ∈ g, isBlank c = true := by
  unfold Text.blanks? at h
  split at h
  · cases h
  · next hg =>
    cases h
    exact ⟨hg, holds_of_mem_takeWhile⟩

namespace Phrase

/-- The words of a phrase with blanks between them, in letters that `fold` takes for those of
the phrase. -/
inductive Spells (fold : Char → Char) : List Text → Text → Prop
  | last {w u : Text} : u.map fold = w.map fold → Spells fold [w] u
  | word {w u gap m : Text} {ws : List Text} :
      u.map fold = w.map fold → gap ≠ [] → (∀ c ∈ gap, isBlank c = true) → Spells fold ws m →
      Spells fold (w :: ws) (u ++ gap ++ m)

/-- A phrase `m` that no word reaches into from `before` or `after`. -/
structure Stands (before m after : Text) : Prop where
  spells : ∃ ws ∈ unsupportedPhrases, Spells foldCase ws m
  before : before.getLast?.any isWordChar = false
  after : after.head?.any isWordChar = false

/-- The leftmost phrase of `s` is `m`. -/
def First (s m : Text) : Prop :=
  ∃ before after, s = before ++ m ++ after ∧ Stands before m after ∧
    ∀ before' m' after', s = before' ++ m' ++ after' → Stands before' m' after' →
      before.length ≤ before'.length

theorem isWordChar_of_folded {w u : Text} (hw : ∀ c ∈ w, Language.isPhraseChar c = true)
    (h : u.map foldCase = w.map foldCase) : ∀ c ∈ u, isWordChar c = true :=
  fun c hc => Language.isWordChar_of_isPhraseChar (Language.isPhraseChar_of_folded hw h c hc)

theorem Spells.ne_nil {ws : List Text} {m : Text} (h : Spells foldCase ws m) : ws ≠ [] := by
  cases h <;> simp

/-- A phrase starts with a letter, which is no blank. -/
theorem Spells.head {ws : List Text} (hws : Spelled ws) {m : Text} (h : Spells foldCase ws m)
    (s : Text) : ∃ c t, m ++ s = c :: t ∧ isBlank c = false := by
  have start {w u : Text} {ws : List Text} (hws : Spelled (w :: ws))
      (hu : u.map foldCase = w.map foldCase) (s : Text) :
      ∃ c t, u ++ s = c :: t ∧ isBlank c = false := by
    obtain ⟨hn, hw⟩ := hws w (by simp)
    cases u with
    | nil => exact absurd (List.map_eq_nil_iff.mp hu.symm) hn
    | cons c u =>
      refine ⟨c, u ++ s, rfl, ?_⟩
      by_contra hb
      have hc := isWordChar_of_folded hw hu c (by simp)
      rw [Language.not_isWordChar_of_isBlank (by simpa using hb)] at hc
      cases hc
  cases h with
  | last hu => exact start hws hu s
  | @word w u gap m ws hu _ _ _ => simpa using start hws hu (gap ++ m ++ s)

theorem read?_eq_some_iff {ws : List Text} (hws : Spelled ws) (hn : ws ≠ []) {s m rest : Text} :
    read? ws s = some (m, rest) ↔ s = m ++ rest ∧ Spells foldCase ws m := by
  constructor
  · intro h
    refine ⟨(of_read? hws hn h).1, ?_⟩
    induction ws generalizing s m with
    | nil => exact absurd rfl hn
    | cons w ws ih =>
      cases ws with
      | nil => exact .last (folded?_eq_some.mp h).2
      | cons w' ws =>
        simp only [read?, Option.bind_eq_bind, Option.bind_eq_some_iff, Prod.exists,
          Option.some.injEq, Prod.mk.injEq] at h
        obtain ⟨u, s₁, hu, gap, s₂, hgap, more, s₃, hmore, rfl, rfl⟩ := h
        obtain ⟨hne, hblank⟩ := of_blanks? hgap
        exact .word (folded?_eq_some.mp hu).2 hne hblank (ih hws.tail (by simp) hmore)
  · rintro ⟨rfl, h⟩
    induction h with
    | last hu => exact folded?_eq_some.mpr ⟨rfl, hu⟩
    | @word w u gap m ws hu hne hblank hmore ih =>
      obtain ⟨w', ws, rfl⟩ := List.exists_cons_of_ne_nil hmore.ne_nil
      obtain ⟨c, t, hc, hb⟩ := hmore.head hws.tail rest
      have hread := ih hws.tail (by simp)
      have hblanks : Text.blanks? (gap ++ (m ++ rest)) = some (gap, m ++ rest) :=
        blanks?_append hne hblank (by simpa [hc] using hb)
      have hfold : Text.folded? w (u ++ (gap ++ (m ++ rest))) = some (u, gap ++ (m ++ rest)) :=
        folded?_eq_some.mpr ⟨rfl, hu⟩
      simp [read?, hfold, hblanks, hread]

/-- The words as they compare. -/
def folded (ws : List Text) : List Text :=
  ws.map fun w => w.map foldCase

theorem head?_any_of_blanks {g s : Text} (hg : g ≠ []) (hb : ∀ c ∈ g, isBlank c = true) :
    (g ++ s).head?.any isWordChar = false := by
  obtain ⟨c, g, rfl⟩ := List.exists_cons_of_ne_nil hg
  simpa using Language.not_isWordChar_of_isBlank (hb c (by simp))

/-- Two phrases at one place are the same text, or one goes on from the other. -/
theorem Spells.unique {ws ws' : List Text} (hws : Spelled ws) (hws' : Spelled ws')
    {m m' rest rest' : Text} (h : Spells foldCase ws m) (h' : Spells foldCase ws' m')
    (hrest : rest.head?.any isWordChar = false) (hrest' : rest'.head?.any isWordChar = false)
    (he : m ++ rest = m' ++ rest') :
    m = m' ∨ folded ws ≠ folded ws' ∧ (folded ws <+: folded ws' ∨ folded ws' <+: folded ws) := by
  have letters {w u : Text} {ws : List Text} (hws : Spelled (w :: ws))
      (hu : u.map foldCase = w.map foldCase) : ∀ c ∈ u, isWordChar c = true :=
    isWordChar_of_folded (hws w (by simp)).2 hu
  -- both first words are the longest run of letters there, and so are both gaps of blanks
  induction h generalizing ws' m' with
  | @last w u hu =>
    cases h' with
    | @last w' u' hu' => exact .inl (run_inj (letters hws hu) hrest (letters hws' hu') hrest' he).1
    | @word w' u' gap' m' ws' hu' hn' hb' hmore' =>
      have hsame := (run_inj (letters hws hu) hrest (letters hws' hu')
        (head?_any_of_blanks (s := m' ++ rest') hn' hb') (by simpa using he)).1
      have hw : w.map foldCase = w'.map foldCase := by rw [← hu, ← hu', hsame]
      obtain ⟨w'', ws', rfl⟩ := List.exists_cons_of_ne_nil hmore'.ne_nil
      exact .inr ⟨by simp [folded], .inl (by simp [folded, hw])⟩
  | @word w u gap m ws hu hn hb hmore ih =>
    cases h' with
    | @last w' u' hu' =>
      have hsame := (run_inj (letters hws hu) (head?_any_of_blanks (s := m ++ rest) hn hb)
        (letters hws' hu') hrest' (by simpa using he)).1
      have hw : w.map foldCase = w'.map foldCase := by rw [← hu, ← hu', hsame]
      obtain ⟨w'', ws, rfl⟩ := List.exists_cons_of_ne_nil hmore.ne_nil
      exact .inr ⟨by simp [folded], .inr (by simp [folded, hw])⟩
    | @word w' u' gap' m' ws' hu' hn' hb' hmore' =>
      obtain ⟨hsame, hgaps⟩ := run_inj (letters hws hu)
        (head?_any_of_blanks (s := m ++ rest) hn hb) (letters hws' hu')
        (head?_any_of_blanks (s := m' ++ rest') hn' hb') (by simpa using he)
      have hw : w.map foldCase = w'.map foldCase := by rw [← hu, ← hu', hsame]
      obtain ⟨c, t, hc, hblank⟩ := hmore.head hws.tail rest
      obtain ⟨c', t', hc', hblank'⟩ := hmore'.head hws'.tail rest'
      obtain ⟨hgap, hmores⟩ := run_inj hb (by simpa [hc] using hblank) hb'
        (by simpa [hc'] using hblank') hgaps
      obtain rfl | ⟨hne, hfront⟩ := ih hws.tail hws'.tail hmore' hmores
      · exact .inl (by rw [hsame, hgap])
      · refine .inr ⟨?_, ?_⟩
        · simpa [folded, hw] using hne
        · simpa [folded, hw] using hfront

/-- No phrase of the language is the front of another. -/
theorem unsupportedPhrases_apart {ws ws' : List Text} (hws : ws ∈ unsupportedPhrases)
    (hws' : ws' ∈ unsupportedPhrases) (h : folded ws <+: folded ws') : folded ws = folded ws' := by
  have hall : ∀ ws ∈ unsupportedPhrases, ∀ ws' ∈ unsupportedPhrases,
      folded ws <+: folded ws' → folded ws = folded ws' := by decide
  exact hall ws hws ws' hws' h

section

variable {back : Option Char} {s m rest : Text}

theorem spells_of_unsupported (h : unsupported back s = some (m, rest)) :
    s = m ++ rest ∧ back.any isWordChar = false ∧ rest.head?.any isWordChar = false ∧
      ∃ ws ∈ unsupportedPhrases, Spells foldCase ws m := by
  obtain ⟨hback, hrest, ws, hws, hread⟩ := of_unsupported h
  obtain ⟨hs, hspells⟩ := (read?_eq_some_iff (spelled_of_mem hws) (ne_nil_of_mem hws)).mp hread
  exact ⟨hs, hback, hrest, ws, hws, hspells⟩

theorem unsupported_eq_some_iff :
    unsupported back s = some (m, rest) ↔
      s = m ++ rest ∧ back.any isWordChar = false ∧ rest.head?.any isWordChar = false ∧
        ∃ ws ∈ unsupportedPhrases, Spells foldCase ws m := by
  refine ⟨spells_of_unsupported, ?_⟩
  rintro ⟨rfl, hback, hrest, ws, hws, hspells⟩
  have hread : read? ws (m ++ rest) = some (m, rest) :=
    (read?_eq_some_iff (spelled_of_mem hws) (ne_nil_of_mem hws)).mpr ⟨rfl, hspells⟩
  obtain ⟨⟨m', rest'⟩, hhit⟩ :=
    Option.ne_none_iff_exists'.mp (unsupported_ne_none hback hrest hws hread)
  obtain ⟨hsame, -, hrest', ws', hws', hspells'⟩ := spells_of_unsupported hhit
  -- an earlier phrase of the table may be found here only if it is this one
  have hm : m = m' := by
    rcases hspells.unique (spelled_of_mem hws) (spelled_of_mem hws') hspells' hrest hrest'
      hsame with hm | ⟨hne, hfront | hfront⟩
    · exact hm
    · exact absurd (unsupportedPhrases_apart hws hws' hfront) hne
    · exact absurd (unsupportedPhrases_apart hws' hws hfront).symm hne
  subst hm
  rw [hhit, List.append_cancel_left hsame]

end

theorem stands_iff {before m after : Text} :
    Stands before m after ↔ unsupported before.getLast? (m ++ after) = some (m, after) := by
  rw [unsupported_eq_some_iff]
  exact ⟨fun h => ⟨rfl, h.before, h.after, h.spells⟩, fun ⟨_, hb, ha, hs⟩ => ⟨hs, hb, ha⟩⟩

/-- Phrases are found where they stand. -/
theorem not_silent_of_stands {before m after u s : Text} (h : Stands before m after)
    (hs : before ++ m ++ after = u ++ s) (hlen : before.length < u.length) :
    ¬unsupported.Silent none u s := by
  intro hsilent
  rw [List.append_assoc] at hs
  obtain ⟨v, rfl, hv⟩ | ⟨v, rfl, -⟩ := List.append_eq_append_iff.mp hs
  · have hne : v ≠ [] := by
      rintro rfl
      simp at hlen
    have hnone := hsilent.eq_none hne
    rw [← hv, stands_iff.mp h] at hnone
    cases hnone
  · simp at hlen

theorem first_of_head?_hits {s m : Text} (h : (unsupported.hits s).head? = some m) :
    First s m := by
  obtain ⟨before, v, after, rfl, hsilent, hhit⟩ := Pattern.silent_of_head?_hits h
  obtain ⟨rfl, hb, ha, hspells⟩ := unsupported_eq_some_iff.mp hhit
  refine ⟨before, after, by simp, ⟨hspells, hb, ha⟩, fun before' m' after' hs hstands => ?_⟩
  by_contra hlt
  exact not_silent_of_stands hstands hs.symm (by omega) hsilent

theorem First.unique {s m m' : Text} (h : First s m) (h' : First s m') : m = m' := by
  obtain ⟨before, after, hs, hstands, hleast⟩ := h
  obtain ⟨before', after', hs', hstands', hleast'⟩ := h'
  have hlen := Nat.le_antisymm (hleast _ _ _ hs' hstands') (hleast' _ _ _ hs hstands)
  have hsame : before ++ (m ++ after) = before' ++ (m' ++ after') := by
    simpa using hs.symm.trans hs'
  obtain ⟨rfl, htail⟩ := List.append_inj hsame hlen
  have hhit := stands_iff.mp hstands
  rw [htail, stands_iff.mp hstands'] at hhit
  cases hhit
  rfl

theorem exists_hit_of_stands {before m after : Text} (h : Stands before m after) :
    ∃ m', (unsupported.hits (before ++ m ++ after)).head? = some m' := by
  cases hhits : unsupported.hits (before ++ m ++ after) with
  | cons m' ms => exact ⟨m', rfl⟩
  | nil =>
    obtain ⟨ws, hws, hspells⟩ := h.spells
    obtain ⟨c, t, hc, -⟩ := hspells.head (spelled_of_mem hws) after
    refine absurd (Pattern.hits_eq_nil.mp hhits) (not_silent_of_stands h (by simp) ?_)
    have hlen := congrArg List.length hc
    simp at hlen ⊢
    omega

theorem head?_hits_eq_some_iff {s m : Text} :
    (unsupported.hits s).head? = some m ↔ First s m := by
  refine ⟨first_of_head?_hits, fun h => ?_⟩
  have ⟨before, after, hs, hstands, _⟩ := h
  obtain ⟨m', hm'⟩ := exists_hit_of_stands hstands
  rw [← hs] at hm'
  rw [hm', (first_of_head?_hits hm').unique h]

/-- Letters of another ASCII case are among those that compare the same. -/
theorem Spells.of_toLower {ws : List Text} (hws : ∀ w ∈ ws, ∀ c ∈ w, c.isAlpha = true) {m : Text}
    (h : Spells Char.toLower ws m) : Spells foldCase ws m := by
  have word {w u : Text} (hw : ∀ c ∈ w, c.isAlpha = true)
      (h : u.map Char.toLower = w.map Char.toLower) : u.map foldCase = w.map foldCase :=
    (folded?_eq_some.mp (Language.folded?_of_spells h hw [])).2
  induction h with
  | last hu => exact .last (word (hws _ (by simp)) hu)
  | word hu hn hb _ ih =>
    obtain ⟨hw, hws⟩ := List.forall_mem_cons.mp hws
    exact .word (word hw hu) hn hb (ih hws)

theorem isAlpha_of_mem {ws : List Text} (hws : ws ∈ unsupportedPhrases) :
    ∀ w ∈ ws, ∀ c ∈ w, c.isAlpha = true := by
  have hall : unsupportedPhrases.all (fun ws => ws.all fun w => w.all Char.isAlpha) = true := by
    decide
  simp only [List.all_eq_true] at hall
  exact hall ws hws

end Phrase

theorem checkSupported_eq_error_iff {s m : Text} :
    checkSupported s = .error (.unsupported m) ↔ Phrase.First s m := by
  rw [← Phrase.head?_hits_eq_some_iff, checkSupported]
  cases Phrase.unsupported.hits s <;> simp

/-- Only the first gate refuses a rule for a phrase. -/
theorem translate_eq_unsupported_iff {b : Bindings} {s m : Text} :
    translate b s = .error (.unsupported m) ↔ checkSupported s = .error (.unsupported m) := by
  unfold translate
  cases hs : checkSupported s with
  | error e => simp [bind, Except.bind]
  | ok _ =>
    cases hb : checkBound b s with
    | error e =>
      obtain ⟨name, rfl, -⟩ := name_of_checkBound hb
      simp [bind, Except.bind]
    | ok _ =>
      cases hr : Pass.runAll b Pass.all s with
      | error e =>
        obtain ⟨p, hp, u, hu⟩ := Pass.of_runAll_error hr
        obtain rfl | ⟨v, rfl⟩ := Pass.late_of_all p hp hu <;> simp [bind, Except.bind]
      | ok t =>
        simp only [bind, Except.bind]
        split <;> simp

/-- A rule is refused for a phrase exactly if it has one, whatever stands around the phrase, and
for the leftmost. A phrase in letters of any ASCII case is one. -/
theorem translate_unsupported_iff (b : Bindings) (s : Text) :
    (∀ m, translate b s = .error (.unsupported m) ↔ Phrase.First s m) ∧
    ∀ ws ∈ unsupportedPhrases, ∀ before w after, Phrase.Spells Char.toLower ws w →
      before.getLast?.any isWordChar = false → after.head?.any isWordChar = false →
      s = before ++ w ++ after →
      ∃ m, Phrase.First s m ∧ translate b s = .error (.unsupported m) := by
  have hiff (m : Text) : translate b s = .error (.unsupported m) ↔ Phrase.First s m :=
    translate_eq_unsupported_iff.trans checkSupported_eq_error_iff
  refine ⟨hiff, fun ws hws before w after hspells hbefore hafter hs => ?_⟩
  have hstands : Phrase.Stands before w after :=
    ⟨⟨ws, hws, hspells.of_toLower (Phrase.isAlpha_of_mem hws)⟩, hbefore, hafter⟩
  obtain ⟨m, hm⟩ := Phrase.exists_hit_of_stands hstands
  rw [← hs, Phrase.head?_hits_eq_some_iff] at hm
  exact ⟨m, hm, (hiff m).mpr hm⟩

/-- In a literal that is not closed, before a variable without a value. -/
theorem translate_unsupported_iff_quoted :
    translate Keyed.empty "A='x is  Not\u00a0nulL @N@".toList =
      .error (.unsupported "is  Not\u00a0nulL".toList) := by
  have hspells : Phrase.Spells Char.toLower ["IS".toList, "NOT".toList, "NULL".toList]
      ("is".toList ++ "  ".toList ++ ("Not".toList ++ "\u00a0".toList ++ "nulL".toList)) :=
    .word (by decide) (by decide) (List.all_eq_true.mp rfl)
      (.word (by decide) (by decide) (List.all_eq_true.mp rfl) (.last (by decide)))
  obtain ⟨m, hm, hrefused⟩ :=
    (translate_unsupported_iff Keyed.empty "A='x is  Not\u00a0nulL @N@".toList).2 _ (by decide)
      "A='x ".toList _ " @N@".toList hspells (by decide) (by decide) (by decide)
  have hhead : (Phrase.unsupported.hits "A='x is  Not\u00a0nulL @N@".toList).head? =
      some "is  Not\u00a0nulL".toList := by cbv
  rw [hrefused, hm.unique (Phrase.head?_hits_eq_some_iff.mp hhead)]

end WhereFilter
