import WhereFilter.Proofs.Layout.Translation
import WhereFilter.Proofs.Rule.Gate

namespace WhereFilter

/-- A hit is found at some place of the list. -/
theorem Pattern.of_mem_hits {p : Pattern α β} {l : List α} {b : β} (h : b ∈ p.hits l) :
    ∃ back u rest, u <:+ l ∧ p back u = some (b, rest) := by
  have hseg : .hit b ∈ p.segments l := by
    simp only [hits, List.mem_filterMap] at h
    obtain ⟨g, hg, he⟩ := h
    cases g with
    | item a => cases he
    | hit c =>
      cases he
      exact hg
  suffices hall : ∀ back n, .hit b ∈ p.segmentsFrom back n l →
      ∃ back u rest, u <:+ l ∧ p back u = some (b, rest) by
    exact hall none 0 hseg
  clear h hseg
  induction l with
  | nil => simp [segmentsFrom]
  | cons a l ih =>
    intro back n h
    have further {back : Option α} {n : Nat} (h : .hit b ∈ p.segmentsFrom back n l) :
        ∃ back u rest, u <:+ a :: l ∧ p back u = some (b, rest) := by
      obtain ⟨back', u, rest, hu, hp⟩ := ih back n h
      exact ⟨back', u, rest, hu.trans (List.suffix_cons a l), hp⟩
    cases n with
    | succ n =>
      rw [segmentsFrom] at h
      exact further h
    | zero =>
      rw [segmentsFrom] at h
      cases hp : p back (a :: l) with
      | none =>
        simp only [hp, List.mem_cons, reduceCtorEq, false_or] at h
        exact further h
      | some hit =>
        obtain ⟨c, rest⟩ := hit
        simp only [hp, List.mem_cons, Segment.hit.injEq] at h
        rcases h with rfl | h
        · exact ⟨back, a :: l, rest, List.suffix_refl _, hp⟩
        · exact further h

theorem not_of_mem_cut {p : α → Bool} {l piece : List α} (h : piece ∈ cut p l) :
    ∀ a ∈ piece, p a = false := by
  induction l generalizing piece with
  | nil => simp_all [cut]
  | cons b l ih =>
    rw [cut] at h
    split at h
    · rcases List.mem_cons.mp h with rfl | h
      · simp
      · exact ih h
    · next hb =>
      cases hc : cut p l with
      | nil => exact absurd hc (cut_ne_nil p l)
      | cons first rest =>
        simp only [hc, consFirst, List.mem_cons] at h
        rcases h with rfl | h
        · exact List.forall_mem_cons.mpr ⟨by simpa using hb, ih (by simp [hc])⟩
        · exact ih (by simp [hc, h])

namespace Text

/-- The only blanks of a respaced text are spaces. -/
theorem eq_space_of_mem_respace {t : Text} {c : Char} (hc : c ∈ respace t)
    (hb : isBlank c = true) : c = ' ' := by
  have hwords : ∀ w ∈ words t, ∀ a ∈ w, isBlank a = false :=
    fun w hw => not_of_mem_cut (List.mem_of_mem_filter hw)
  rw [respace, List.intercalate, List.mem_flatten] at hc
  obtain ⟨w, hw, hcw⟩ := hc
  generalize words t = ws at hw hwords
  induction ws with
  | nil => simp [List.intersperse] at hw
  | cons v ws ih =>
    simp only [List.mem_cons, forall_eq_or_imp] at hwords
    cases ws with
    | nil =>
      simp only [List.intersperse, List.mem_singleton] at hw
      subst hw
      rw [hwords.1 c hcw] at hb
      cases hb
    | cons v' ws =>
      simp only [List.intersperse, List.mem_cons] at hw
      rcases hw with rfl | rfl | hw
      · rw [hwords.1 c hcw] at hb
        cases hb
      · simpa using hcw
      · exact ih hw hwords.2

end Text

namespace Pass

theorem of_runAll_concat {b : Bindings} {ps : List Pass} {p : Pass} {s t : Text}
    (h : runAll b (ps ++ [p]) s = .ok t) : ∃ u, p.run b u = .ok t := by
  induction ps generalizing s with
  | nil =>
    refine ⟨s, ?_⟩
    cases hp : p.run b s <;> simp_all [runAll]
  | cons q ps ih =>
    rw [List.cons_append, runAll] at h
    cases hq : q.run b s with
    | ok u =>
      rw [hq] at h
      exact ih h
    | error e => simp [hq] at h

theorem of_runAll_error {b : Bindings} {ps : List Pass} {s : Text} {e : Refusal}
    (h : runAll b ps s = .error e) : ∃ p ∈ ps, ∃ u, p.run b u = .error e := by
  induction ps generalizing s with
  | nil => cases h
  | cons p ps ih =>
    rw [runAll] at h
    cases hp : p.run b s with
    | ok u =>
      rw [hp] at h
      obtain ⟨q, hq, u, hu⟩ := ih h
      exact ⟨q, List.mem_cons_of_mem p hq, u, hu⟩
    | error e' =>
      simp only [hp, Except.error.injEq] at h
      exact ⟨p, by simp, s, h ▸ hp⟩

end Pass

/-- What refuses a rule past the gates. -/
def Refusal.Late (e : Refusal) : Prop :=
  e = .vacuous ∨ ∃ u, e = .malformed u

namespace Pass

variable {b : Bindings} {s : Text} {e : Refusal}

theorem not_error_plain {name : String} {run : Text → Text} :
    (plain name run).run b s ≠ .error e := by
  simp [plain]

theorem late_of_scanning {name : String} {run : Bindings → Text → Except Unclosed Text}
    (h : (scanning name run).run b s = .error e) : e.Late := by
  simp only [scanning] at h
  cases hr : run b s with
  | ok t => simp [hr, Except.mapError] at h
  | error u =>
    simp only [hr, Except.mapError, Except.error.injEq] at h
    exact .inr ⟨u, h.symm⟩

end Pass

theorem late_of_foldMarkers {s : Text} {e : Refusal} (h : foldMarkers s = .error e) : e.Late := by
  unfold foldMarkers at h
  split at h
  · next u _ =>
    cases h
    exact .inr ⟨u, rfl⟩
  · split at h
    · split at h
      · cases h
      · cases h
        exact .inl rfl
      · cases h
    · cases h

theorem Pass.late_of_all {b : Bindings} {s : Text} {e : Refusal} :
    ∀ p ∈ Pass.all, p.run b s = .error e → e.Late := by
  simp only [Pass.all, List.mem_cons, List.not_mem_nil, or_false, forall_eq_or_imp, forall_eq]
  exact ⟨late_of_scanning, fun h => absurd h not_error_plain, late_of_scanning,
    fun h => absurd h not_error_plain, late_of_scanning, late_of_scanning, late_of_scanning,
    late_of_scanning, fun h => absurd h not_error_plain, late_of_foldMarkers,
    fun h => absurd h not_error_plain, fun h => absurd h not_error_plain⟩

/-- A phrase is refused as it stands in the rule. -/
theorem phrase_of_checkSupported {rule : Text} {e : Refusal} (h : checkSupported rule = .error e) :
    ∃ phrase, e = .unsupported phrase ∧ phrase <:+: rule := by
  unfold checkSupported at h
  cases hh : Phrase.unsupported.hits rule with
  | nil => simp [hh] at h
  | cons phrase phrases =>
    simp only [hh, Except.error.injEq] at h
    refine ⟨phrase, h.symm, ?_⟩
    have hmem : phrase ∈ Phrase.unsupported.hits rule := by simp [hh]
    obtain ⟨back, u, rest, hu, hp⟩ := Pattern.of_mem_hits hmem
    obtain ⟨-, -, ws, hws, hread⟩ := Phrase.of_unsupported hp
    have ht := (Phrase.of_read? (Phrase.spelled_of_mem hws) (Phrase.ne_nil_of_mem hws) hread).1
    have hfront : phrase <+: u := ht ▸ List.prefix_append phrase rest
    exact hfront.isInfix.trans hu.isInfix

theorem name_of_checkBound {b : Bindings} {rule : Text} {e : Refusal}
    (h : checkBound b rule = .error e) : ∃ name, e = .unbound name ∧ Placeholder.IsName name := by
  unfold checkBound at h
  split at h
  · cases h
  · next name hn =>
    cases h
    exact ⟨name, rfl, Placeholder.isName_of_mem_names (List.mem_of_find?_eq_some hn)⟩

/-- What comes of a rule: a respaced filter, a phrase of the rule, a name without a value, or
a refusal that says nothing of the rule but a place in it. -/
theorem translate_cases (b : Bindings) (rule : Text) :
    (∃ t, translate b rule = .ok (Text.respace t)) ∨
    (∃ phrase, translate b rule = .error (.unsupported phrase) ∧ phrase <:+: rule) ∨
    (∃ name, translate b rule = .error (.unbound name) ∧ Placeholder.IsName name) ∨
    ∃ e, translate b rule = .error e ∧ e.Late := by
  unfold translate
  cases hs : checkSupported rule with
  | error e =>
    obtain ⟨phrase, rfl, hp⟩ := phrase_of_checkSupported hs
    exact .inr (.inl ⟨phrase, rfl, hp⟩)
  | ok _ =>
    cases hb : checkBound b rule with
    | error e =>
      obtain ⟨name, rfl, hn⟩ := name_of_checkBound hb
      exact .inr (.inr (.inl ⟨name, rfl, hn⟩))
    | ok _ =>
      cases hr : Pass.runAll b Pass.all rule with
      | error e =>
        obtain ⟨p, hp, u, hu⟩ := Pass.of_runAll_error hr
        exact .inr (.inr (.inr ⟨e, rfl, Pass.late_of_all p hp hu⟩))
      | ok t =>
        have hlast : Pass.all = Pass.all.dropLast ++ [.plain "normalize_whitespace" Text.respace] :=
          rfl
        rw [hlast] at hr
        obtain ⟨u, hu⟩ := Pass.of_runAll_concat hr
        cases hu
        by_cases he : (Text.respace u).isEmpty
        · exact .inr (.inr (.inr ⟨.vacuous, by simp [bind, Except.bind, he], .inl rfl⟩))
        · exact .inl ⟨u, by simp [bind, Except.bind, he]⟩

theorem newline_not_mem_digits (n : Nat) : '\n' ∉ Digits.ofNat n :=
  fun hn => absurd (Digits.isDigit_ofNat n '\n' hn) (by decide)

theorem newline_not_mem_late {e : Refusal} (he : e.Late) : '\n' ∉ e.message := by
  obtain rfl | ⟨u, rfl⟩ := he
  · have hm : '\n' ∉ "no filter left after simplification".toList := by simp
    exact hm
  · exact List.not_mem_append (by simp)
      (List.not_mem_append (by simp) (newline_not_mem_digits u.offset))

end WhereFilter
