import WhereFilter.Proofs.Rule.Filled
import WhereFilter.Proofs.Rule.Removal
import WhereFilter.Rule.Translate

namespace WhereFilter

namespace Placeholder

theorem names_barrier (u : Text) {c : Char} (s : Text) (hc : isBarrier c = true) :
    names (u ++ c :: s) = names u ++ names s := by
  simp [names, Pattern.hits, segments_barrier u s hc]

theorem isName_of_mem_names {n s : Text} (h : n ∈ names s) : IsName n := by
  induction hl : s.length using Nat.strongRecOn generalizing s with
  | _ k ih =>
    subst hl
    rcases segments_cases s with rfl | ⟨c, r, rfl, -, hg⟩ | ⟨p, r, rfl, hp, hg⟩
    · cases h
    · have hr : n ∈ names r := by simpa [names, Pattern.hits, hg] using h
      exact ih _ (by simp) hr rfl
    · have hlen := List.length_pos_iff.mpr (text_ne_nil p)
      rw [names, Pattern.hits, hg] at h
      rcases List.mem_cons.mp h with rfl | hr
      · exact isName_of_pattern hp
      · exact ih _ (by simp; omega) hr rfl

theorem write_congr {b c : Bindings} (render : Value → Text)
    {ss : List (Segment Char Placeholder)}
    (h : ∀ p, .hit p ∈ ss → b.lookup? p.name = c.lookup? p.name) :
    write b render ss = write c render ss := by
  induction ss with
  | nil => rfl
  | cons g ss ih =>
    have hrest := ih fun p hm => h p (List.mem_cons_of_mem g hm)
    cases g with
    | item a => simp [write, hrest]
    | hit p => simp [write, written, hrest, h p (by simp)]

/-- A filling depends on the values of the names it meets. -/
theorem fill_congr {b c : Bindings} (render : Value → Text) {s : Text}
    (h : ∀ n ∈ names s, b.lookup? n = c.lookup? n) : fill b render s = fill c render s := by
  rw [fill_eq_write, fill_eq_write]
  exact write_congr render fun p hp => h p.name (mem_names.mpr ⟨p, hp, rfl⟩)

end Placeholder

namespace Stretches

def text (st : Stretches) : Text :=
  st.lead ++ st.literals.flatMap fun (contents, after) => '\'' :: contents ++ '\'' :: after

/-- The names of the placeholders that are looked up when `st` is filled, in order. -/
def names (st : Stretches) : List Text :=
  Placeholder.names st.lead ++ st.literals.flatMap fun (contents, after) =>
    Placeholder.names contents ++ Placeholder.names after

theorem names_eq (st : Stretches) : st.names = Placeholder.names st.text := by
  obtain ⟨lead, literals⟩ := st
  induction literals generalizing lead with
  | nil => simp [names, text]
  | cons l literals ih =>
    obtain ⟨contents, after⟩ := l
    have hrest := ih after
    simp only [names, text, List.flatMap_cons, List.cons_append, List.append_assoc] at hrest ⊢
    rw [Placeholder.names_barrier lead _ rfl, Placeholder.names_barrier contents _ rfl, ← hrest]

theorem text_ofLexemes {ls : List Lexeme} {tail : Text} (hf : ∀ l ∈ ls, l.token.Formed) :
    (ofLexemes tail ls).text = ls.flatMap Lexeme.text ++ tail := by
  induction ls with
  | nil => simp [ofLexemes, text]
  | cons l ls ih =>
    have hrest := ih fun a ha => hf a (List.mem_cons_of_mem l ha)
    rw [ofLexemes]
    cases hl : l.is .literal with
    | true =>
      have hform := hf l (by simp)
      obtain ⟨gap, kind, w⟩ := l
      simp only [Lexeme.is, beq_iff_eq] at hl
      subst hl
      obtain ⟨x, _, rfl⟩ := hform
      simp only [text] at hrest
      simp [text, Lexeme.text, Token.contents, ← hrest]
    | false =>
      simp only [text] at hrest
      simp [text, ← hrest]

theorem fill_congr {b c : Bindings} {st : Stretches}
    (h : ∀ n ∈ st.names, b.lookup? n = c.lookup? n) : st.fill b = st.fill c := by
  obtain ⟨lead, literals⟩ := st
  simp only [names, List.mem_append, List.mem_flatMap] at h
  have hlead := Placeholder.fill_congr Value.operand fun n hn => h n (.inl hn)
  have hrest : ∀ l ∈ literals,
      '\'' :: Placeholder.fill b Value.inLiteral l.1 ++ '\'' :: Placeholder.fill b Value.operand l.2 =
        '\'' :: Placeholder.fill c Value.inLiteral l.1 ++
          '\'' :: Placeholder.fill c Value.operand l.2 := by
    intro l hl
    have hcontents := Placeholder.fill_congr Value.inLiteral fun n hn => h n (.inr ⟨l, hl, .inl hn⟩)
    have hafter := Placeholder.fill_congr Value.operand fun n hn => h n (.inr ⟨l, hl, .inr hn⟩)
    rw [hcontents, hafter]
  rw [fill, fill, hlead]
  simp only [List.flatMap_def, List.map_congr_left hrest]

end Stretches

/-- The names that are looked up when the variables of `rule` are filled in, behind the two
passes that come before. -/
def metNames (rule : Text) : List Text :=
  match dropQualifiers rule with
  | .error _ => []
  | .ok t =>
    match scan (dropCoalesce t) with
    | .error _ => []
    | .ok found => (Stretches.ofLexemes found.tail found.lexemes).names

theorem of_mem_metNames {rule n : Text} (hn : n ∈ metNames rule) :
    ∃ t, dropQualifiers rule = .ok t ∧ n ∈ Placeholder.names (dropCoalesce t) := by
  unfold metNames at hn
  cases ht : dropQualifiers rule with
  | error e => simp [ht] at hn
  | ok t =>
    refine ⟨t, rfl, ?_⟩
    simp only [ht] at hn
    cases hs : scan (dropCoalesce t) with
    | error e => simp [hs] at hn
    | ok found =>
      simp only [hs] at hn
      obtain ⟨htext, hf, -⟩ := scan_eq_ok_iff.mp hs
      rwa [Stretches.names_eq, Stretches.text_ofLexemes fun l hl => hf.formed_of_mem hl,
        ← Scan.text, htext] at hn

theorem checkBound_eq_ok_iff {b : Bindings} {rule : Text} :
    checkBound b rule = .ok () ↔ ∀ n ∈ Placeholder.names rule, b.binds n = true := by
  unfold checkBound
  split
  · next h => simpa using h
  · next n h =>
    have hn := List.find?_some h
    have hm := List.mem_of_find?_eq_some h
    constructor
    · intro he
      cases he
    · intro hall
      rw [hall n hm] at hn
      cases hn

theorem bareName_of_isName {n : Text} (hn : Placeholder.IsName n) : bareName n = n := by
  apply bareName_of_ne
  intro hhash
  cases hn.2 '#' (List.mem_of_mem_head? hhash)

/-- The names of a rule and no others. -/
def namesOnly (rule : Text) : Bindings :=
  Keyed.ofList ((Placeholder.names rule).map fun n => (n, .yesNo true))

theorem binds_namesOnly {rule n : Text} (hn : Placeholder.IsName n) :
    (namesOnly rule).binds n = true ↔ n ∈ Placeholder.names rule := by
  have hget (k : Text) : ((namesOnly rule).get? k).isSome = true ↔ k ∈ Placeholder.names rule := by
    rw [namesOnly, Bindings.isSome_get?_ofList, List.map_map]
    simp
  have hhash : '#' :: n ∉ Placeholder.names rule := by
    intro hm
    cases (Placeholder.isName_of_mem_names hm).2 '#' (by simp)
  rw [Bindings.binds, Bindings.lookup?, bareName_of_isName hn, Option.isSome_or, Bool.or_eq_true,
    hget, hget]
  exact or_iff_left hhash

theorem checkBound_congr {b c : Bindings} {rule : Text}
    (h : ∀ n ∈ Placeholder.names rule, b.lookup? n = c.lookup? n) :
    checkBound b rule = checkBound c rule := by
  have hfind : ∀ ns : List Text, (∀ n ∈ ns, b.lookup? n = c.lookup? n) →
      (ns.find? fun n => !b.binds n) = ns.find? fun n => !c.binds n := by
    intro ns hns
    induction ns with
    | nil => rfl
    | cons n ns ih =>
      have hn : b.binds n = c.binds n := by rw [Bindings.binds, Bindings.binds, hns n (by simp)]
      rw [List.find?_cons, List.find?_cons, hn, ih fun m hm => hns m (List.mem_cons_of_mem n hm)]
  rw [checkBound, checkBound, hfind _ h]

/-- Beyond the gate, values are looked up where variables are filled in, and nowhere else. -/
theorem translate_congr {b c : Bindings} {rule : Text}
    (h : ∀ n ∈ Placeholder.names rule, b.lookup? n = c.lookup? n)
    (hm : ∀ n ∈ metNames rule, b.lookup? n = c.lookup? n) : translate b rule = translate c rule := by
  have hrun : Pass.runAll b Pass.all rule = Pass.runAll c Pass.all rule := by
    simp only [Pass.all, Pass.runAll, Pass.scanning, Pass.plain]
    unfold metNames at hm
    cases ht : dropQualifiers rule with
    | error e => rfl
    | ok t =>
      have hfill : fillPlaceholders b (dropCoalesce t) = fillPlaceholders c (dropCoalesce t) := by
        simp only [ht] at hm
        unfold fillPlaceholders
        cases hs : scan (dropCoalesce t) with
        | error e => rfl
        | ok found =>
          simp only [hs] at hm
          simp only [Except.map, Stretches.fill_congr hm]
      simp only [Except.mapError, hfill]
  rw [translate, translate, checkBound_congr h, hrun]

theorem metNames_of_tidy {rule : Text} (h : .item '@' ∉ Placeholder.pattern.segments rule) :
    metNames rule ⊆ Placeholder.names rule := by
  intro n hn
  obtain ⟨t, ht, hmet⟩ := of_mem_metNames hn
  obtain ⟨ms, hms, htidy⟩ := tidy_dropCoalesce (tidy_dropQualifiers (Tidy.of_segments h) ht)
  rw [htidy.names_eq] at hmet
  exact hms hmet

/-- The gate sees every variable that is filled in later exactly if the two passes between make
no new one, and then nothing but the values of the variables it saw decides the outcome. At
signs that belong to variables only are enough for that. -/
theorem checkBound_complete_iff (rule : Text) :
    ((∀ b : Bindings, checkSupported rule = .ok () → checkBound b rule = .ok () →
        ∀ n ∈ metNames rule, b.binds n = true) ↔
      (checkSupported rule = .ok () → metNames rule ⊆ Placeholder.names rule)) ∧
    (metNames rule ⊆ Placeholder.names rule → ∀ b c : Bindings,
      (∀ n ∈ Placeholder.names rule, b.lookup? n = c.lookup? n) →
      translate b rule = translate c rule) ∧
    (.item '@' ∉ Placeholder.pattern.segments rule → metNames rule ⊆ Placeholder.names rule) := by
  refine ⟨⟨?_, ?_⟩, ?_, metNames_of_tidy⟩
  · intro hall hs n hn
    have hb : checkBound (namesOnly rule) rule = .ok () := by
      rw [checkBound_eq_ok_iff]
      intro m hm
      exact (binds_namesOnly (Placeholder.isName_of_mem_names hm)).mpr hm
    obtain ⟨t, -, hmet⟩ := of_mem_metNames hn
    exact (binds_namesOnly (Placeholder.isName_of_mem_names hmet)).mp
      (hall (namesOnly rule) hs hb n hn)
  · intro hsub b hs hb n hn
    exact checkBound_eq_ok_iff.mp hb n (hsub hs hn)
  · intro hsub b c h
    exact translate_congr h fun n hn => h n (hsub hn)

theorem checkBound_complete_iff_of_qualified :
    (¬∀ b : Bindings, checkSupported ['A', '=', '@', 'T', '.', 'N', '@'] = .ok () →
        checkBound b ['A', '=', '@', 'T', '.', 'N', '@'] = .ok () →
        ∀ n ∈ metNames ['A', '=', '@', 'T', '.', 'N', '@'], b.binds n = true) ∧
    translate (Keyed.ofList [(['N'], .yesNo true)]) ['A', '=', '@', 'N', '@'] =
      translate (Keyed.ofList [(['N'], .yesNo true), (['M'], .yesNo false)])
        ['A', '=', '@', 'N', '@'] := by
  constructor
  · have hmet : metNames ['A', '=', '@', 'T', '.', 'N', '@'] = [['N']] := by cbv
    have hseen : Placeholder.names ['A', '=', '@', 'T', '.', 'N', '@'] = [] := by decide
    have hs : checkSupported ['A', '=', '@', 'T', '.', 'N', '@'] = .ok () := by cbv
    rw [(checkBound_complete_iff ['A', '=', '@', 'T', '.', 'N', '@']).1, hmet, hseen]
    intro hsub
    cases hsub hs (List.mem_singleton.mpr rfl)
  · have h := checkBound_complete_iff ['A', '=', '@', 'N', '@']
    exact h.2.1 (h.2.2 (by decide)) _ _ (by decide)

end WhereFilter
