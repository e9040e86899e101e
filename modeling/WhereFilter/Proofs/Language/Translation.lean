import WhereFilter.Proofs.Language.Spacing
import WhereFilter.Proofs.Language.Variables
import WhereFilter.Rule.Translate

namespace WhereFilter

namespace Language

open Reading (Rank unspaced)

/-! ### What the passes up to the tenth leave -/

theorem run_scanning {name : String} {run : Bindings → Text → Except Unclosed Text} {b : Bindings}
    {s t : Text} (h : run b s = .ok t) : (Pass.scanning name run).run b s = .ok t := by
  show (run b s).mapError Refusal.malformed = _
  rw [h]
  rfl

theorem run_plain {name : String} {run : Text → Text} {b : Bindings} {s t : Text}
    (h : run s = t) : (Pass.plain name run).run b s = .ok t :=
  congrArg Except.ok h

/-- A pass that rewrites a rule from clause to clause, where the clauses are `P`, to a rule that
says the same, where the clauses are `Q`. -/
structure Rebuilds (b : Bindings) (p : Pass) (spell : Text → Text) (f : Clause → Rule .piece)
    (P Q : Clause → Prop) : Prop where
  run {k : Rank} {r : Rule k} {lead tail : Text} : r.Formed P → IsGap lead → IsGap tail →
    p.run b (r.text lead tail) = .ok ((r.rebuild spell f).text lead tail)
  lower (t : Text) : Text.lower (spell t) = Text.lower t
  clause {c : Clause} : P c → (f c).Formed Q
  truth {c : Clause} (row : Row) : P c → (f c).truth (Clause.truth b row) = c.truth b row

namespace Rebuilds

variable {b : Bindings} {p : Pass} {spell : Text → Text} {f : Clause → Rule .piece}
  {P Q : Clause → Prop} {r : Rule k}

theorem formed (h : Rebuilds b p spell f P Q) (hr : r.Formed P) : (r.rebuild spell f).Formed Q :=
  hr.rebuild h.lower fun _ hc => h.clause hc

theorem truth_rule (h : Rebuilds b p spell f P Q) (hr : r.Formed P) (row : Row) :
    (r.rebuild spell f).truth (Clause.truth b row) = r.truth (Clause.truth b row) := by
  rw [Rule.truth_rebuild]
  exact Rule.truth_congr (fun _ hc => h.truth row hc) hr

theorem runAll (h : Rebuilds b p spell f P Q) (hr : r.Formed P) {lead tail : Text}
    (hlead : IsGap lead) (htail : IsGap tail) (ps : List Pass) :
    Pass.runAll b (p :: ps) (r.text lead tail) =
      Pass.runAll b ps ((r.rebuild spell f).text lead tail) := by
  rw [Pass.runAll, h.run hr hlead htail]

end Rebuilds

theorem Clause.forItems_mapSubject {P : Item → Prop} {f : Subject → Subject} {c : Clause} :
    (c.mapSubject f).ForItems P ↔ c.ForItems P := by
  match c with
  | .compare (.subject _) _ _ _ _ | .compare (.item _) _ _ _ _ | .member _ _ _ _ _ _ => rfl

/-- A rule with values for its variables. -/
structure Clause.Admitted (b : Bindings) (c : Clause) : Prop where
  formed : c.Formed
  in_rules : c.InRules
  bound : c.Bound b

theorem Clause.Admitted.mapSubject {b : Bindings} {f : Subject → Subject}
    (hf : ∀ x, x.Formed → (f x).Formed) {c : Clause} (hc : c.Admitted b) :
    (c.mapSubject f).Admitted b := by
  refine ⟨hc.formed.mapSubject hf, ?_, Clause.forItems_mapSubject.mpr hc.bound.1, ?_⟩
  · match c, hc with
    | .compare (.subject _) _ _ _ _, hc => exact hc.in_rules
    | .compare (.item _) _ _ _ _, hc => exact hc.in_rules
    | .member _ _ _ _ _ _, hc => exact hc.in_rules
  · match c, hc with
    | .compare (.subject _) _ _ _ _, hc =>
      intro quoted p before relation behind right he
      cases he
    | .compare (.item _) _ _ _ _, hc => exact hc.bound.2
    | .member _ _ _ _ _ _, hc =>
      intro quoted p before relation behind right he
      cases he

theorem Clause.truth_mapSubject {f : Subject → Subject} (hf : ∀ x, (f x).column = x.column)
    (b : Bindings) (row : Row) (c : Clause) : (c.mapSubject f).truth b row = c.truth b row := by
  match c with
  | .compare (.subject x) _ _ _ _ => simp only [mapSubject, truth, hf]
  | .compare (.item _) _ _ _ _ => rfl
  | .member x _ _ _ _ _ => simp only [mapSubject, truth, hf]

theorem Clause.filled_spec {b : Bindings} {c : Clause} (hc : c.Admitted b) (hbare : c.Bare) :
    ((c.mapItems (Item.filled b)).Settled ∧ (c.mapItems (Item.filled b)).Lettered) ∧
      ∀ row, (c.mapItems (Item.filled b)).truth b row = c.truth b row := by
  have hitems : c.ForItems fun i => i.Formed ∧ i.Bound b := hc.formed.forItems.and hc.bound.1
  have same {P Q : Item → Prop} (h : ∀ i, P i → Q i) (hc : c.ForItems P) : c.ForItems Q := by
    match c with
    | .compare (.subject _) _ _ _ _ => exact h _ hc
    | .compare (.item _) _ _ _ _ => exact ⟨h _ hc.1, h _ hc.2⟩
    | .member _ _ _ _ _ _ => exact fun e he => h _ (hc e he)
  refine ⟨⟨⟨?_, ?_, ?_⟩, ?_⟩, ?_⟩
  · exact hc.formed.mapItems (same (fun i h => (i.filled_spec h.1 h.2).1) hitems)
  · match c, hbare with
    | .compare (.subject x) _ _ _ _, hbare => exact hbare
    | .compare (.item _) _ _ _ _, hbare => exact hbare
    | .member x _ _ _ _ _, hbare => exact hbare
  · exact Clause.forItems_mapItems (fun i h => (i.filled_spec h.1 h.2).2.1) hitems
  · intro i before relation behind right he
    match c, hc with
    | .compare (.subject _) _ _ _ _, _ => cases he
    | .member _ _ _ _ _ _, _ => cases he
    | .compare (.item j) before' relation' behind' right', hc =>
      cases he
      obtain ⟨⟨p, rfl⟩, rfl, hright⟩ := hc.in_rules
      obtain ⟨holds, hlookup⟩ := hc.bound.2 _ _ _ _ _ _ rfl
      refine ⟨rfl, holds, ?_⟩
      have hletter : Item.filled b (.placeholder true p) = .literal (letterText holds) := by
        simp only [Item.filled, hlookup]
        rfl
      rcases hright with rfl | rfl
      · exact ⟨true, hletter, rfl⟩
      · exact ⟨false, hletter, rfl⟩
  · intro row
    exact Clause.truth_mapItems (same (fun i h => (i.filled_spec h.1 h.2).2.2) hitems) row

/-! One lemma for each of the passes up to the tenth. -/

section Passes

variable (b : Bindings)

theorem lower_lower (t : Text) : Text.lower (Text.lower t) = Text.lower t := by
  simp only [Text.lower, List.map_map]
  exact List.map_congr_left fun c _ => Char.toLower_toLower_eq_toLower c

/-- A row to read the facts about clauses off that do not depend on one. -/
def anyRow : Row := fun _ _ => .eq

theorem rebuilds_unqualified :
    Rebuilds b (Pass.scanning "strip_qualifiers" fun _ => dropQualifiers) id
      (fun c => .clause (c.mapSubject Subject.unqualified)) (Clause.Admitted b)
      fun c => c.Admitted b ∧ c.Untabled where
  run hr hlead htail :=
    run_scanning (dropQualifiers_text (hr.mono fun _ h => h.formed) hlead htail)
  lower _ := rfl
  clause hc :=
    ⟨hc.mapSubject fun _ => Subject.Formed.unqualified, Clause.untabled_mapSubject _⟩
  truth {c} row _ := Clause.truth_mapSubject (f := Subject.unqualified) (fun _ => rfl) b row c

theorem rebuilds_uncalled :
    Rebuilds b (Pass.plain "strip_coalesce" dropCoalesce) id
      (fun c => .clause (c.mapSubject Subject.uncalled)) (fun c => c.Admitted b ∧ c.Untabled)
      fun c => c.Admitted b ∧ c.Bare where
  run hr hlead htail :=
    run_plain (dropCoalesce_text (hr.mono fun _ h => ⟨h.1.formed, h.2⟩) hlead htail)
  lower _ := rfl
  clause hc := ⟨hc.1.mapSubject fun _ => Subject.Formed.uncalled, hc.2.bare⟩
  truth {c} row _ := Clause.truth_mapSubject (f := Subject.uncalled) (fun _ => rfl) b row c

theorem rebuilds_filled :
    Rebuilds b (Pass.scanning "substitute_context" fillPlaceholders) id
      (fun c => .clause (c.mapItems (Item.filled b))) (fun c => c.Admitted b ∧ c.Bare)
      fun c => c.Settled ∧ c.Lettered where
  run hr hlead htail :=
    run_scanning (fillPlaceholders_text
      (hr.mono fun _ h => ⟨h.1.formed, h.2, h.1.bound.1⟩) hlead htail)
  lower _ := rfl
  clause hc := (Clause.filled_spec hc.1 hc.2).1
  truth row hc := (Clause.filled_spec hc.1 hc.2).2 row

theorem rebuilds_decided :
    Rebuilds b (Pass.plain "fold_yes_no_comparisons" YesNo.foldComparisons) id
      (fun c => .clause c.decided) (fun c => c.Settled ∧ c.Lettered)
      fun c => c.Settled ∧ c.Marked where
  run hr hlead htail :=
    run_plain (foldComparisons_text hr hlead htail)
  lower _ := rfl
  clause {c} hc :=
    have h := c.decided_spec hc.1 hc.2 b anyRow
    ⟨h.1, h.2.1⟩
  truth {c} row hc := (c.decided_spec hc.1 hc.2 b row).2.2

theorem rebuilds_expanded :
    Rebuilds b (Pass.scanning "expand_in_lists" fun _ => expandLists) id Clause.expanded
      (fun c => c.Settled ∧ c.Marked) Clause.Simple where
  run hr hlead htail :=
    run_scanning (expandLists_text (hr.mono fun _ h => h.1) hlead htail)
  lower _ := rfl
  clause {c} hc := (c.expanded_spec hc.1 hc.2 b anyRow).1
  truth {c} row hc := (c.expanded_spec hc.1 hc.2 b row).2

theorem rebuilds_unequal :
    Rebuilds b (Pass.scanning "not_equals" fun _ => respell unequalSpelling) id
      (fun c => .clause (c.worded Relation.unequalWord)) Clause.Simple
      fun c => c.Simple ∧ c.Worded Relation.unequalWord where
  run hr hlead htail :=
    run_scanning (respell_text carries_unequal (fun _ h => h.settled.formed) hr hlead htail)
  lower _ := rfl
  clause hc := hc.unequal
  truth {c} row _ := by
    refine Clause.truth_worded ?_ c b row
    intro r spelled h
    cases r <;> cases h <;> rfl

theorem rebuilds_equal :
    Rebuilds b (Pass.scanning "equals" fun _ => respell equalSpelling) id
      (fun c => .clause (c.worded Relation.equalWord))
      (fun c => c.Simple ∧ c.Worded Relation.unequalWord) Clause.Spelled where
  run hr hlead htail :=
    run_scanning (respell_text carries_equal (fun _ h => h.settled.formed)
      (hr.mono fun _ h => h.1) hlead htail)
  lower _ := rfl
  clause hc := hc.1.equal hc.2
  truth {c} row _ := by
    refine Clause.truth_worded ?_ c b row
    intro r spelled h
    cases r <;> cases h <;> rfl

theorem rebuilds_lowered :
    Rebuilds b (Pass.scanning "lowercase_connectives" fun _ => respell connectiveSpelling)
      Text.lower .clause Clause.Spelled Clause.Spelled where
  run hr hlead htail :=
    run_scanning (respell_text (f := id) carries_connectives (fun _ h => h.settled.formed)
      (hr.mono fun _ h => h.simple) hlead htail)
  lower := lower_lower
  clause hc := hc
  truth _ _ := rfl

theorem rebuilds_validated :
    Rebuilds b (Pass.plain "yes_no_to_bool" YesNo.useTruthValues) id
      (fun c => .clause c.validated) Clause.Spelled Clause.Ready where
  run hr hlead htail :=
    run_plain (useTruthValues_text (hr.mono fun _ h => h.simple) hlead htail)
  lower _ := rfl
  clause {c} hc := (c.validated_spec hc b anyRow).1
  truth {c} row hc := (c.validated_spec hc b row).2

end Passes

namespace Rule

/-- What the first nine passes leave of a rule. -/
def prepared (b : Bindings) (r : Rule k) : Rule k :=
  ((((((((r.rebuild id fun c => .clause (c.mapSubject Subject.unqualified)).rebuild id
    fun c => .clause (c.mapSubject Subject.uncalled)).rebuild id
    fun c => .clause (c.mapItems (Item.filled b))).rebuild id
    fun c => .clause c.decided).rebuild id
    Clause.expanded).rebuild id
    fun c => .clause (c.worded Relation.unequalWord)).rebuild id
    fun c => .clause (c.worded Relation.equalWord)).rebuild Text.lower
    .clause).rebuild id
    fun c => .clause c.validated

/-- The first nine passes leave a rule of clauses that filters have, which says the same of every
row. -/
theorem prepared_spec {b : Bindings} {r : Rule k} (hr : r.Formed (Clause.Admitted b)) :
    (r.prepared b).Formed Clause.Ready ∧
      (∀ row, (r.prepared b).truth (Clause.truth b row) = r.truth (Clause.truth b row)) ∧
      ∀ {lead tail : Text}, IsGap lead → IsGap tail → Pass.runAll b Pass.all (r.text lead tail) =
        Pass.runAll b [⟨"fold_markers", fun _ => foldMarkers⟩,
          Pass.plain "unwrap_single_clauses" unwrapClauses,
          Pass.plain "normalize_whitespace" Text.respace] ((r.prepared b).text lead tail) := by
  have h₁ := (rebuilds_unqualified b).formed hr
  have h₂ := (rebuilds_uncalled b).formed h₁
  have h₃ := (rebuilds_filled b).formed h₂
  have h₄ := (rebuilds_decided b).formed h₃
  have h₅ := (rebuilds_expanded b).formed h₄
  have h₆ := (rebuilds_unequal b).formed h₅
  have h₇ := (rebuilds_equal b).formed h₆
  have h₈ := (rebuilds_lowered b).formed h₇
  refine ⟨(rebuilds_validated b).formed h₈, fun row => ?_, fun hlead htail => ?_⟩
  · rw [prepared, (rebuilds_validated b).truth_rule h₈, (rebuilds_lowered b).truth_rule h₇,
      (rebuilds_equal b).truth_rule h₆, (rebuilds_unequal b).truth_rule h₅,
      (rebuilds_expanded b).truth_rule h₄, (rebuilds_decided b).truth_rule h₃,
      (rebuilds_filled b).truth_rule h₂, (rebuilds_uncalled b).truth_rule h₁,
      (rebuilds_unqualified b).truth_rule hr]
  · rw [Pass.all, (rebuilds_unqualified b).runAll hr hlead htail,
      (rebuilds_uncalled b).runAll h₁ hlead htail, (rebuilds_filled b).runAll h₂ hlead htail,
      (rebuilds_decided b).runAll h₃ hlead htail, (rebuilds_expanded b).runAll h₄ hlead htail,
      (rebuilds_unequal b).runAll h₅ hlead htail, (rebuilds_equal b).runAll h₆ hlead htail,
      (rebuilds_lowered b).runAll h₇ hlead htail, (rebuilds_validated b).runAll h₈ hlead htail,
      prepared]

end Rule

/-! ### What the filter says -/

theorem token_spaced (g : Text) (ts : List Token) : (spaced g ts).map Lexeme.token = ts := by
  cases ts with
  | nil => rfl
  | cons t ts => simp [spaced, unspaced, Function.comp_def]

theorem Item.operand?_tokens {i : Item} (hv : i.Valued) :
    ∃ o, Comparison.operand? i.tokens = some o ∧ ∀ b, i.value b = o := by
  match i with
  | .number true _ | .number false _ | .truth true | .truth false =>
    exact ⟨_, rfl, fun _ => rfl⟩
  | .literal contents =>
    exact ⟨_, by simp [tokens, Language.literal, Comparison.operand?], fun _ => rfl⟩

theorem Clause.Ready.relation? {left : Side} {before behind : Text} {relation : Relation}
    {right : Item} (hc : (Clause.compare left before relation behind right).Ready) :
    Comparison.relation? relation.token = some relation := by
  have hunequal := hc.spelled.no_unequal relation rfl
  have hequal := hc.spelled.no_equal relation rfl
  cases relation
  case equals => cases hequal
  case doubleEquals => cases hequal
  case notEquals => cases hunequal
  case bangEquals => cases hunequal
  all_goals rfl

/-- A clause of a filter is read back as a comparison if it is no marker. -/
theorem Clause.Ready.read? {c : Clause} (hc : c.Ready) (hm : c.marker = none) (g : Text) :
    ∃ d, Comparison.read? ((c.lexemes g).map Lexeme.token) = some d ∧
      ∀ b row, d.holds row = c.truth b row := by
  match c, hc with
  | .member _ _ _ _ _ _, hc => cases hc.spelled.simple.no_list
  | .compare (.item i) before relation behind right, hc =>
    obtain ⟨-, -, holds, rfl⟩ := hc.spelled.simple.marked _ _ _ _ _ rfl
    cases hm
  | .compare (.subject x) before relation behind right, hc =>
    have hbare := hc.spelled.simple.settled.bare x rfl
    have hright := hc.spelled.simple.right.2
    have htokens : ((Clause.compare (.subject x) before relation behind right).lexemes g).map
        Lexeme.token = word x.column :: relation.token :: right.tokens := by
      rw [lexemes, Side.lexemes, x.lexemes_of_bare hbare.1 hbare.2]
      simp [token_spaced]
    obtain ⟨o, ho, hvalue⟩ := right.operand?_tokens hright
    refine ⟨⟨x.column, relation, o⟩, ?_, fun b row => ?_⟩
    · rw [htokens]
      simp [word, Comparison.read?, hc.relation?, ho]
    · rw [Clause.truth, hvalue b]
      rfl

theorem Clause.Ready.truth_marker {c : Clause} (hc : c.Ready) {holds : Bool}
    (hm : c.marker = some holds) (b : Bindings) (row : Row) : c.truth b row = holds := by
  match c, hc with
  | .member _ _ _ _ _ _, hc => cases hm
  | .compare (.subject _) _ _ _ _, hc => cases hm
  | .compare (.item i) before relation behind right, hc =>
    obtain ⟨rfl, -, said, rfl⟩ := hc.spelled.simple.marked _ _ _ _ _ rfl
    cases said <;> cases hm <;> rfl

namespace Rule

theorem respects_truth (b : Bindings) (row : Row) : Respects (Clause.truth b row) :=
  fun _ _ hc hm => hc.truth_marker hm b row

/-- What a filter is read as says what its rule says. -/
theorem truth_reading {r : Rule k} (hr : r.Formed Clause.Ready) (b : Bindings) (row : Row)
    (g : Text) : (r.reading g).truth (holdsOf row) = r.truth (Clause.truth b row) := by
  induction r generalizing g with
  | clause c =>
    have hc : c.Ready := hr
    rw [reading, truth]
    cases hm : c.marker with
    | some holds => exact (hc.truth_marker hm b row).symm
    | none =>
      obtain ⟨d, hd, htruth⟩ := hc.read? hm g
      rw [← htruth b row]
      simp [Reading.truth, holdsOf, hd]
  | group inside r before ih => exact ih hr.2.1 inside
  | part r ih => exact ih hr g
  | whole r ih => exact ih hr g
  | both l j r ihl ihr => simp only [reading, Reading.truth, truth, ihl hr.1, ihr hr.2.2]
  | either l j r ihl ihr => simp only [reading, Reading.truth, truth, ihl hr.1, ihr hr.2.2]

theorem read?_of_mem_atoms {r : Rule k} (hr : r.Formed Clause.Ready) {g : Text} {a : List Lexeme}
    (ha : a ∈ (r.reading g).atoms) : (Comparison.read? (a.map Lexeme.token)).isSome = true := by
  induction r generalizing g with
  | clause c =>
    have hc : c.Ready := hr
    rw [reading] at ha
    cases hm : c.marker with
    | some holds =>
      rw [hm] at ha
      cases ha
    | none =>
      simp only [hm, Reading.atoms, List.mem_singleton] at ha
      obtain ⟨d, hd, -⟩ := hc.read? hm g
      rw [ha, hd]
      rfl
  | group inside r before ih => exact ih hr.2.1 ha
  | part r ih => exact ih hr ha
  | whole r ih => exact ih hr ha
  | both l j r ihl ihr => exact (List.mem_append.mp ha).elim (ihl hr.1) (ihr hr.2.2)
  | either l j r ihl ihr => exact (List.mem_append.mp ha).elim (ihl hr.1) (ihr hr.2.2)

/-- The rule that the last two passes leave. -/
def finished (r : Rule k) : Rule k :=
  (r.unwrapped []).1.respaced

theorem finished_text {r : Rule k} (hr : r.Formed Clause.Ready) {lead tail : Text}
    (hlead : IsGap lead) (htail : IsGap tail) :
    Text.respace (unwrapClauses (r.text lead tail)) = r.finished.trimmed := by
  have hsimple : r.Formed Clause.Simple := hr.mono fun _ h => h.spelled.simple
  rw [unwrapClauses_text hsimple hlead htail,
    respace_text (formed_unwrapped hsimple (List.forall_mem_nil IsGap)) hlead htail]
  rfl

theorem scan_trimmed {r : Rule k} (hr : r.Formed Clause.Ready) :
    scan r.trimmed = .ok ⟨r.lexemes [], []⟩ :=
  scan_eq_ok_iff.mpr ⟨rfl,
    r.fit (hr.mono fun _ h => h.spelled.simple.settled.formed) isGap_nil isGap_nil, isGap_nil⟩

theorem trimmed_ne_nil {r : Rule k} (hr : r.Formed Clause.Ready) : r.trimmed ≠ [] := by
  intro h
  have hscan := scan_trimmed hr
  obtain ⟨t, ls, hls⟩ := lexemes_gap (hr.mono fun _ h => h.spelled.simple)
  rw [h, scan_nil, hls] at hscan
  cases hscan

/-- Past the gate, a translation folds markers, unwraps and respaces what the first nine passes
leave. -/
theorem translate_eq {b : Bindings} {r : Rule k} (hr : r.Formed (Clause.Admitted b))
    {lead tail : Text} (hlead : IsGap lead) (htail : IsGap tail)
    (hgate : checkSupported (r.text lead tail) = .ok ()) :
    translate b (r.text lead tail) =
      (foldMarkers ((r.prepared b).text lead tail)).bind fun s =>
        if (Text.respace (unwrapClauses s)).isEmpty then .error .vacuous
        else .ok (Text.respace (unwrapClauses s)) := by
  have hbound : checkBound b (r.text lead tail) = .ok () :=
    checkBound_text (hr.mono fun _ h => ⟨h.formed, h.bound.1⟩) hlead htail
  obtain ⟨-, -, hruns⟩ := prepared_spec hr
  rw [translate, hgate, hbound, hruns hlead htail]
  cases hm : foldMarkers ((r.prepared b).text lead tail) <;>
    simp [Pass.runAll, Pass.plain, hm] <;> rfl

/-- What a rule past the gate is translated to. -/
theorem translate_text {b : Bindings} {r : Rule .whole} (hr : r.Formed (Clause.Admitted b))
    {lead tail : Text} (hlead : IsGap lead) (htail : IsGap tail)
    (hgate : checkSupported (r.text lead tail) = .ok ()) :
    match translate b (r.text lead tail) with
    | .ok t => ∃ f : Rule .whole, f.Formed Clause.Ready ∧ t = f.trimmed ∧
        ∀ row, f.truth (Clause.truth b row) = r.truth (Clause.truth b row)
    | .error e => e = .vacuous ∧ ∀ row, r.truth (Clause.truth b row) = false := by
  obtain ⟨hready, htruth, -⟩ := prepared_spec hr
  have hmarkers := foldMarkers_text hready hlead htail
  rw [translate_eq hr hlead htail hgate]
  cases hm : foldMarkers ((r.prepared b).text lead tail) with
  | error e =>
    rw [hm] at hmarkers
    exact ⟨hmarkers.1, fun row => by rw [← htruth row, hmarkers.2 _ (respects_truth b row)]⟩
  | ok s =>
    rw [hm] at hmarkers
    obtain ⟨f, lead', tail', rfl, hlead', htail', hf, hsame⟩ := hmarkers
    have hfinished : f.finished.Formed Clause.Ready :=
      formed_respaced (fun _ h => h.respaced) (formed_unwrapped hf (List.forall_mem_nil IsGap))
    have hnonempty : f.finished.trimmed.isEmpty = false := by
      simpa using trimmed_ne_nil hfinished
    simp only [Except.bind, finished_text hf hlead' htail', hnonempty]
    refine ⟨f.finished, hfinished, rfl, fun row => ?_⟩
    rw [finished, truth_respaced, truth_unwrapped, hsame _ (respects_truth b row), htruth]

end Rule

/-- Translation is faithful. A rule past the gate, with values for its variables, is translated
to a filter that reads as comparisons and holds of the rows that the rule holds of, or it is
refused because it holds of none. -/
theorem translate_faithful {b : Bindings} {r : Rule .whole} (hr : r.Formed (Clause.Admitted b))
    {lead tail : Text} (hlead : IsGap lead) (htail : IsGap tail)
    (hgate : checkSupported (r.text lead tail) = .ok ()) :
    match translate b (r.text lead tail) with
    | .ok t => ∃ found, scan t = .ok found ∧
        (∀ a ∈ (Reading.ofLexemes found.lexemes).atoms,
          (Comparison.read? (a.map Lexeme.token)).isSome = true) ∧
        ∀ row, (Reading.ofLexemes found.lexemes).truth (holdsOf row) =
          r.truth (Clause.truth b row)
    | .error .vacuous => ∀ row, r.truth (Clause.truth b row) = false
    | .error _ => False := by
  have h := r.translate_text hr hlead htail hgate
  cases ht : translate b (r.text lead tail) with
  | error e =>
    rw [ht] at h
    obtain ⟨rfl, hnever⟩ := h
    exact hnever
  | ok t =>
    rw [ht] at h
    obtain ⟨f, hf, rfl, htruth⟩ := h
    have hread : Reading.ofLexemes (f.lexemes []) = f.reading [] :=
      f.parses (hf.mono fun _ h => h.spelled) []
    refine ⟨_, f.scan_trimmed hf, fun a ha => ?_, fun row => ?_⟩
    · simp only [hread] at ha
      exact f.read?_of_mem_atoms hf ha
    · simp only [hread]
      exact (f.truth_reading hf b row []).trans (htruth row)

/-- The number nearest to one tenth. -/
def tenth : Magnitude :=
  ⟨7205759403792794, 1018, by decide⟩

def stockBindings : Bindings :=
  Keyed.ofList [("V".toList, .text "b".toList), ("B".toList, .yesNo false),
    ("N".toList, .number (.finite false tenth))]

/-- `Buy.Qty > 5 AND Rate <= @N@ AND ('@B@' = 'Y' OR Kind IN (@V@))` -/
def stockRule : Rule .whole :=
  .whole (.both
    (.clause (.compare (.subject ⟨some "Buy".toList, "Qty".toList, none⟩) [' '] .greater [' ']
      (.number false ['5'])))
    ⟨[' '], "AND".toList, [' ']⟩
    (.both
      (.clause (.compare (.subject ⟨none, "Rate".toList, none⟩) [' '] .lessEquals [' ']
        (.placeholder false ⟨false, "N".toList⟩)))
      ⟨[' '], "AND".toList, [' ']⟩
      (.part (.group []
        (.either
          (.part (.clause (.compare (.item (.placeholder true ⟨false, "B".toList⟩)) [' '] .equals [' ']
            (.literal "Y".toList))))
          ⟨[' '], "OR".toList, [' ']⟩
          (.whole (.part (.clause (.member ⟨none, "Kind".toList, none⟩ none ⟨[' '], "IN".toList⟩
            [' '] ⟨[], .placeholder false ⟨false, "V".toList⟩, []⟩ []))))) []))))

theorem stockRule_admitted : stockRule.Formed (Clause.Admitted stockBindings) := by
  have subject {table : Option Text} {column : Text} (ht : ∀ t, table = some t → IsName t)
      (hc : IsName column) : (⟨table, column, none⟩ : Subject).Formed :=
    ⟨ht, hc, fun k hk => by cases hk⟩
  have joint {w : Text} {j : Joint} (hj : j = ⟨[' '], w, [' ']⟩) : j.Of w :=
    hj ▸ ⟨isGap_space, by simp, rfl, isGap_space, by simp⟩
  have hplain {t : Text} (ht : t.all isPlainChar = true) : Plain t := List.all_eq_true.mp ht
  refine ⟨⟨⟨?_, isGap_space, isGap_space, numeral_digit rfl, fun h => by cases h⟩, ⟨rfl, trivial⟩, trivial,
    fun _ _ _ _ _ _ h => by cases h⟩, joint rfl, ⟨⟨?_, isGap_space, isGap_space, ?_,
    fun h => by cases h⟩, ⟨rfl, trivial⟩, ⟨_, rfl, false, tenth, rfl⟩, fun _ _ _ _ _ _ h => by cases h⟩,
    joint rfl, isGap_nil, ⟨?_, joint rfl, ?_⟩, isGap_nil⟩
  · refine subject (fun t ht => ?_) (isName_cons (c := 'Q') (t := ['t', 'y']) rfl rfl rfl)
    cases ht
    exact isName_cons (c := 'B') (t := ['u', 'y']) rfl rfl rfl
  · exact subject (fun t ht => by cases ht)
      (isName_cons (c := 'R') (t := ['a', 't', 'e']) rfl rfl rfl)
  · exact isName_cons (c := 'N') (t := []) rfl rfl rfl
  · refine ⟨⟨isName_cons (c := 'B') (t := []) rfl rfl rfl, isGap_space, isGap_space, hplain rfl, fun h => by cases h⟩,
      ⟨⟨_, rfl⟩, rfl, .inl rfl⟩, ⟨⟨_, rfl, trivial⟩, trivial⟩, fun _ _ _ _ _ _ h => ?_⟩
    cases h
    exact ⟨false, rfl⟩
  · have hcolumn : IsName "Kind".toList := isName_cons (c := 'K') (t := ['i', 'n', 'd']) rfl rfl rfl
    have hvariable : IsName "V".toList := isName_cons (c := 'V') (t := []) rfl rfl rfl
    refine ⟨⟨subject (fun t ht => by cases ht) hcolumn, (fun n hn => by cases hn),
      ⟨isGap_space, by simp, rfl⟩, isGap_space, fun e he => ?_⟩, fun e he => ?_, fun e he => ?_,
      fun _ _ _ _ _ _ h => by cases h⟩
    · rw [List.mem_singleton.mp he]
      exact ⟨isGap_nil, hvariable, isGap_nil⟩
    · rw [List.mem_singleton.mp he]
      trivial
    · rw [List.mem_singleton.mp he]
      exact ⟨_, rfl, hplain rfl⟩

/-- A table name, a number, a list and a variable that decides a branch. The operand of the number
reads back as it, and no number is nearer to one tenth. -/
theorem translate_faithful_of_stockRule :
    (∃ found, scan "Qty > 5 and Rate <= 0.1 and Kind eq 'b'".toList = .ok found ∧
      ∀ row, (Reading.ofLexemes found.lexemes).truth (holdsOf row) =
        stockRule.truth (Clause.truth stockBindings row)) ∧
    valueOperand false (.number (.finite false tenth)) = .number "0.1".toList ∧
    Binary64.read? "0.1".toList = some (.finite false tenth) ∧
    ∀ k : Magnitude, |(1 / 10 : ℚ) - tenth.value| ≤ |(1 / 10 : ℚ) - k.value| := by
  have hgate : checkSupported (stockRule.text [] []) = .ok () := by cbv
  have hrun : translate stockBindings (stockRule.text [] []) =
      .ok "Qty > 5 and Rate <= 0.1 and Kind eq 'b'".toList := by decide +kernel
  have htext : (Binary64.finite false tenth).text = "0.1".toList := by decide +kernel
  have hdecimal : Decimal.read? "0.1".toList = some ⟨false, 1, -1⟩ := by decide
  have h := translate_faithful stockRule_admitted isGap_nil isGap_nil hgate
  rw [hrun] at h
  obtain ⟨found, hscan, -, htruth⟩ := h
  have hread := read?_valueOperand false (.finite false tenth)
  obtain ⟨d, hd, hclosest⟩ := Binary64.text_closest false tenth
  rw [htext, hdecimal] at hd
  obtain rfl := Option.some.inj hd
  have hratio : (⟨false, 1, -1⟩ : Decimal).ratio = 1 / 10 := by
    simp [Decimal.ratio, Decimal.numerator, Decimal.denominator]
  rw [hratio] at hclosest
  have hoperand : valueOperand false (.number (.finite false tenth)) = .number "0.1".toList :=
    congrArg Operand.number htext
  rw [hoperand] at hread
  exact ⟨⟨found, hscan, htruth⟩, hoperand, hread, hclosest⟩

end Language

end WhereFilter
