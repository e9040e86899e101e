import WhereFilter.Proofs.Output.Outcome
import WhereFilter.Proofs.Verbatim.Lexemes
import WhereFilter.Proofs.Verbatim.Patterns
import WhereFilter.Rule.Translate

namespace WhereFilter

open Value (doubleQuotes)

namespace Verbatim

/-- Passes each of which leaves a sound text sound. The first gets a tight one or not. -/
inductive Keeps (b : Bindings) (known : Text → Prop) : Bool → List Pass → Prop
  | nil {tight : Bool} : Keeps b known tight []
  | cons {tight tight' : Bool} {p : Pass} {ps : List Pass}
    (hp : ∀ {s t : Text}, Sound tight known s → p.run b s = .ok t → Sound tight' known t)
    (hps : Keeps b known tight' ps) : Keeps b known tight (p :: ps)

section

variable {b : Bindings} {known : Text → Prop} {tight tight' : Bool} {ps : List Pass} {s t : Text}

theorem Keeps.runAll (h : Keeps b known tight ps) (hs : Sound tight known s)
    (ht : Pass.runAll b ps s = .ok t) : Sound false known t := by
  induction h generalizing s with
  | nil =>
    cases ht
    exact hs.loosen
  | @cons tight tight' p ps hp _ ih =>
    rw [Pass.runAll] at ht
    cases hrun : p.run b s with
    | error e => simp [hrun] at ht
    | ok u =>
      rw [hrun] at ht
      exact ih (hp hs hrun) ht

theorem Keeps.plain {name : String} {run : Text → Text}
    (hrun : ∀ {s : Text}, Sound tight known s → Sound tight' known (run s))
    (hps : Keeps b known tight' ps) : Keeps b known tight (.plain name run :: ps) := by
  refine .cons (fun hs ht => ?_) hps
  cases ht
  exact hrun hs

theorem Keeps.scanning {name : String} {run : Bindings → Text → Except Unclosed Text}
    (hrun : ∀ {s t : Text}, Sound tight known s → run b s = .ok t → Sound tight' known t)
    (hps : Keeps b known tight' ps) : Keeps b known tight (.scanning name run :: ps) := by
  refine .cons (fun {s t} hs ht => hrun hs ?_) hps
  simp only [Pass.scanning] at ht
  cases hr : run b s with
  | error e => simp [hr, Except.mapError] at ht
  | ok u => simpa [hr, Except.mapError] using ht

/-- The passes up to the truth values want a tight text, and those behind them none. -/
theorem keeps_all : Keeps b known true Pass.all :=
  .scanning .dropQualifiers <|
  .plain spares_coalesce.replace <|
  .scanning (fun hs ht => hs.fillPlaceholders ht ▸ hs) <|
  .plain .foldComparisons <|
  .scanning .expandLists <|
  .scanning (fun hs => hs.respell .unequal) <|
  .scanning (fun hs => hs.respell .equal) <|
  .scanning (fun hs => hs.respell .connective) <|
  .plain .useTruthValues <|
  .cons .foldMarkers <|
  .plain spares_clause.replace <|
  .plain .respace .nil

end

end Verbatim

/-- A text whose literals and quoted names mislead no pass that reads characters. -/
def Undisturbed (s : Text) : Prop :=
  ∃ found, scan s = .ok found ∧ Verbatim.Safe true found.lexemes found.tail

namespace Verbatim

variable {b : Bindings} {s t : Text}

theorem runAll_of_translate (h : translate b s = .ok t) : Pass.runAll b Pass.all s = .ok t := by
  unfold translate at h
  cases hs : checkSupported s with
  | error e => simp [hs, bind, Except.bind] at h
  | ok _ =>
    cases hb : checkBound b s with
    | error e => simp [hs, hb, bind, Except.bind] at h
    | ok _ =>
      cases hr : Pass.runAll b Pass.all s with
      | error e => simp [hs, hb, hr, bind, Except.bind] at h
      | ok u =>
        simp only [hs, hb, hr, bind, Except.bind] at h
        split at h
        · cases h
        · exact h

/-- Blanks side by side are none between runs. -/
theorem spaced_run {u r : Text} (hu : ∀ c ∈ u, isBlank c = false)
    (h : [' ', ' '] <:+: u ++ r) : [' ', ' '] <:+: r := by
  induction u with
  | nil => exact h
  | cons c u ih =>
    obtain ⟨hc, hu⟩ := List.forall_mem_cons.mp hu
    rcases List.infix_cons_iff.mp h with hfront | h
    · obtain ⟨w, hw⟩ := hfront
      rw [← (List.cons.inj hw).1] at hc
      cases hc
    · exact ih hu h

/-- A respaced text has one space between words. -/
theorem spaced_respace (s : Text) : ¬[' ', ' '] <:+: Text.respace s := by
  have hwords : ∀ w ∈ Text.words s, w ≠ [] ∧ ∀ c ∈ w, isBlank c = false := by
    intro w hw
    obtain ⟨hcut, hne⟩ := List.mem_filter.mp hw
    exact ⟨by simpa using hne, not_of_mem_cut hcut⟩
  rw [Text.respace]
  generalize Text.words s = ws at hwords
  induction ws with
  | nil => decide
  | cons w ws ih =>
    obtain ⟨⟨-, hw⟩, hwords⟩ := List.forall_mem_cons.mp hwords
    intro h
    cases ws with
    | nil =>
      have hnil : [' ', ' '] <:+: ([] : Text) := spaced_run hw (by simpa [List.intercalate] using h)
      simp at hnil
    | cons v ws =>
      have hrest : [' ', ' '] <:+: ' ' :: [' '].intercalate (v :: ws) :=
        spaced_run hw (by simpa [List.intercalate] using h)
      rcases List.infix_cons_iff.mp hrest with hfront | hrest
      · obtain ⟨⟨hne, hv⟩, -⟩ := List.forall_mem_cons.mp hwords
        obtain ⟨c, v, rfl⟩ := List.exists_cons_of_ne_nil hne
        obtain ⟨r, hr⟩ := hfront
        have hc : c = ' ' := by
          cases ws <;> simp [List.intercalate] at hr <;> exact hr.1.symm
        have hblank := hv c (by simp)
        rw [hc] at hblank
        cases hblank
      · exact ih hwords hrest

theorem infix_of_mem_tokens {found : Scan} {x : Token} (hx : x ∈ found.tokens) :
    x.text <:+: found.text := by
  obtain ⟨l, hl, rfl⟩ := List.mem_map.mp hx
  obtain ⟨u, v, hls⟩ := List.append_of_mem hl
  exact ⟨u.flatMap Lexeme.text ++ l.gap, v.flatMap Lexeme.text ++ found.tail, by
    simp [Scan.text, hls, Lexeme.text]⟩

/-- The filter for an undisturbed text can be read, and each of its literals is one of the text.
No literal of any filter has other blanks than single spaces: one that has them in the text is not
in the filter. -/
theorem literals_of_translate (ht : translate b s = .ok t) :
    (Undisturbed s → ∃ ts ts', tokensOf s = .ok ts ∧ tokensOf t = .ok ts' ∧
      ∀ literal ∈ ts', literal.kind = .literal → literal ∈ ts) ∧
    ∀ ts', tokensOf t = .ok ts' → ∀ literal ∈ ts', literal.kind = .literal →
      ¬[' ', ' '] <:+: literal.text ∧ ∀ c ∈ literal.text, isBlank c = true → c = ' ' := by
  constructor
  · rintro ⟨found, hfound, hsafe⟩
    obtain ⟨rfl, hfit, htail⟩ := scan_eq_ok_iff.mp hfound
    have hlisted : ∀ l ∈ found.lexemes, Listed (fun u => ⟨.literal, u⟩ ∈ found.tokens) l.token := by
      intro l hl hk
      have hm := List.mem_map_of_mem (f := Lexeme.token) hl
      rw [← hk]
      exact hm
    have hstart := Stands.sound ⟨hfit, hsafe, hlisted⟩
      (List.append_nil found.tail ▸ (inert_gap htail).sound .nil)
    have hend := keeps_all.runAll hstart (runAll_of_translate ht)
    obtain ⟨found', hfound'⟩ := hend.scans
    obtain ⟨rfl, hfit', -⟩ := scan_eq_ok_iff.mp hfound'
    refine ⟨_, _, by rw [tokensOf, hfound, Except.map], by rw [tokensOf, hfound', Except.map], ?_⟩
    intro x hx hk
    obtain ⟨l, hl, rfl⟩ := List.mem_map.mp hx
    have hm := (hend.stands hfit').1.listed l hl hk
    rw [← hk] at hm
    exact hm
  · intro ts' hts x hx _
    obtain ⟨u, rfl⟩ : ∃ u, t = Text.respace u := by
      rcases translate_cases b s with ⟨u, h⟩ | ⟨phrase, h, -⟩ | ⟨name, h, -⟩ | ⟨e, h, -⟩ <;>
        rw [h] at ht <;> cases ht
      exact ⟨u, rfl⟩
    cases hscan : scan (Text.respace u) with
    | error e => simp [tokensOf, hscan, Except.map] at hts
    | ok found =>
      simp only [tokensOf, hscan, Except.map, Except.ok.injEq] at hts
      subst hts
      have hin := infix_of_mem_tokens hx
      rw [scan_text hscan] at hin
      exact ⟨fun h => spaced_respace u (h.trans hin),
        fun c hc => Text.eq_space_of_mem_respace (hin.subset hc)⟩

/-- A value with a quote and parentheses in it, and a letter that becomes a truth value. -/
theorem literals_of_translate_doubled :
    ∃ t, translate Keyed.empty "T.A IN('it''s (so)') OR B = 'Y'".toList = .ok t ∧
      Undisturbed "T.A IN('it''s (so)') OR B = 'Y'".toList ∧
      (∃ ts ts', tokensOf "T.A IN('it''s (so)') OR B = 'Y'".toList = .ok ts ∧
        tokensOf t = .ok ts' ∧ ∀ literal ∈ ts', literal.kind = .literal → literal ∈ ts) ∧
      ∀ ts', tokensOf t = .ok ts' → ∀ literal ∈ ts', literal.kind = .literal →
        ¬[' ', ' '] <:+: literal.text ∧ ∀ c ∈ literal.text, isBlank c = true → c = ' ' := by
  have hscan : scan "T.A IN('it''s (so)') OR B = 'Y'".toList = .ok ⟨[⟨[], .word, ['T']⟩,
      ⟨[], .dot, ['.']⟩, ⟨[], .word, ['A']⟩, ⟨[' '], .word, ['I', 'N']⟩, ⟨[], .parenLeft, ['(']⟩,
      ⟨[], .literal, quotation "it's (so)".toList⟩, ⟨[], .parenRight, [')']⟩,
      ⟨[' '], .word, ['O', 'R']⟩, ⟨[' '], .word, ['B']⟩, ⟨[' '], .equals, ['=']⟩,
      ⟨[' '], .literal, quotation ['Y']⟩], []⟩ := by
    cbv
  have hvalue : Calm "it's (so)".toList :=
    ⟨by simp [isBlank], by decide, by decide, by decide,
      still_coalesce_of_callFree (by simp [Language.CallFree, foldCase]),
      still_clause_of_not_mem (by simp), by simp [quotation, doubleQuotes, isBlank],
      by simp [quotation, doubleQuotes, isBlank, Text.skipBlanks]⟩
  have hletter : Calm ['Y'] :=
    ⟨by simp [isBlank], by decide, by decide, by decide,
      still_coalesce_of_callFree (by simp [Language.CallFree, foldCase]),
      still_clause_of_not_mem (by simp), by simp [quotation, doubleQuotes, isBlank],
      by simp [quotation, doubleQuotes, isBlank, Text.skipBlanks]⟩
  have hs : Undisturbed "T.A IN('it''s (so)') OR B = 'Y'".toList := by
    refine ⟨_, hscan, by simp [Guarded], by simp [Guarded], by simp [Guarded], by simp [Guarded],
      by simp [Guarded], ⟨⟨_, rfl, hvalue⟩, rfl⟩, rfl, by simp [Guarded], by simp [Guarded],
      by simp [Guarded], ⟨⟨_, rfl, hletter⟩, rfl⟩, trivial⟩
  have ht : translate Keyed.empty "T.A IN('it''s (so)') OR B = 'Y'".toList =
      .ok "(A eq 'it''s (so)') or B eq true".toList := by cbv
  obtain ⟨hkeeps, hspaced⟩ := literals_of_translate ht
  exact ⟨_, ht, hs, hkeeps hs, hspaced⟩

end Verbatim

end WhereFilter
