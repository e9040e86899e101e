import WhereFilter.Proofs.Reading.Meaning

namespace WhereFilter

namespace Reading

/-- No marker, and parentheses around connectives only. -/
def Normal : Reading → Prop
  | .atom _ => True
  | .marker _ => False
  | .group r => r.Normal ∧ r.isCompound = true
  | .either l r | .both l r => l.Normal ∧ r.Normal

theorem Normal.markerFree {r : Reading} (h : r.Normal) : r.MarkerFree := by
  induction r with
  | atom | marker => exact h
  | group r ih => exact ih h.1
  | either l r ihl ihr | both l r ihl ihr => exact ⟨ihl h.1, ihr h.2⟩

theorem Normal.wrapped {r : Reading} (h : r.Normal) : r.wrapped.Normal := by
  cases r with
  | atom | marker | group => exact h
  | either | both => exact ⟨h, rfl⟩

theorem markerFree_of_wrapped {r : Reading} (h : r.wrapped.MarkerFree) : r.MarkerFree := by
  cases r <;> exact h

/-- Folding leaves a normal form, unless a marker is all that is left. -/
theorem normal_folded {r : Reading} (h : r.folded.MarkerFree) : r.folded.Normal := by
  induction r with
  | atom | marker => exact h
  | group r ih => exact (ih (markerFree_of_wrapped h)).wrapped
  | either l r ihl ihr =>
    rw [folded] at h ⊢
    rcases anyOf_cases (settled_folded l) (settled_folded r) with he | he | he | ⟨hl, hr, he⟩ <;>
      rw [he] at h ⊢
    · exact h
    · exact ihr h
    · exact ihl h
    · exact ⟨ihl hl, ihr hr⟩
  | both l r ihl ihr =>
    rw [folded] at h ⊢
    rcases allOf_cases (settled_folded l) (settled_folded r) with he | he | he | ⟨hl, hr, he⟩ <;>
      rw [he] at h ⊢
    · exact h
    · exact ihr h
    · exact ihl h
    · exact ⟨ihl hl, ihr hr⟩

theorem folded_of_normal {r : Reading} (h : r.Normal) : r.folded = r := by
  induction r with
  | atom => rfl
  | marker => exact h.elim
  | group r ih =>
    obtain ⟨hr, hc⟩ := h
    rw [folded, ih hr]
    cases r with
    | atom | marker | group => cases hc
    | either | both => rfl
  | either l r ihl ihr =>
    rw [folded, ihl h.1, ihr h.2, anyOf_of_markerFree h.1.markerFree h.2.markerFree]
  | both l r ihl ihr =>
    rw [folded, ihl h.1, ihr h.2, allOf_of_markerFree h.1.markerFree h.2.markerFree]

/-- The gap before an atom is not part of what is left. -/
@[simp] theorem verdict_mapAtoms_unindent (r : Reading) :
    (r.mapAtoms unindent).verdict = r.verdict := by
  induction r with
  | atom ls => simp [mapAtoms, verdict]
  | marker => rfl
  | group r ih => simp [mapAtoms, verdict, ih]
  | either l r ihl ihr => simp [mapAtoms, verdict, ihl, ihr]
  | both l r ihl ihr => simp [mapAtoms, verdict, ihl, ihr]

/-- What a normal form is written as is folded to itself. -/
theorem foldMarkers_text {r : Reading} (hn : r.Normal) (hp : Printed .last .whole r)
    (hfit : ∀ a ∈ r.atoms, ∃ rest, Fit a rest) : foldMarkers r.text = .ok r.text := by
  obtain ⟨found, hk, hw⟩ := writes_text hfit
  have hread : (ofLexemes found.lexemes).mapAtoms unindent = r.mapAtoms unindent :=
    hp.mapAtoms_ofLexemes (fun _ _ => tokens_of_unindent) hw
  have hverdict : (ofLexemes found.lexemes).verdict = .filter r.text r.isCompound := by
    rw [← verdict_mapAtoms_unindent, hread, verdict_mapAtoms_unindent, verdict_eq_outcome,
      folded_of_normal hn, outcome_of_markerFree hn.markerFree]
  simp only [foldMarkers, hk, hverdict]
  split <;> rfl

end Reading

/-- Folding markers a second time changes nothing. What is rebuilt is a normal form: scanned
again it falls into the same pieces, and each group that was kept still has a connective in it. -/
theorem foldMarkers_idempotent {s t : Text} (h : foldMarkers s = .ok t) :
    foldMarkers t = .ok t := by
  cases hs : scan s with
  | error e => simp [foldMarkers, hs] at h
  | ok found =>
    have hfit := (scan_eq_ok_iff.mp hs).2.1
    cases hm : hasMarker found.lexemes with
    | false =>
      obtain rfl : s = t := by simpa [foldMarkers, hs, hm] using h
      exact h
    | true =>
      let r := Reading.ofLexemes found.lexemes
      have hp : Reading.Printed .last .whole r.folded :=
        (Reading.printed_ofLexemes (p := .last) trivial).folded
      simp only [foldMarkers, hs, hm, if_true, Reading.verdict_eq_outcome] at h
      rcases Reading.settled_folded r with hr | hr | hr
      · rw [hr] at h
        obtain rfl : "1 eq 1".toList = t := Except.ok.inj h
        cbv
      · rw [hr] at h
        cases h
      · rw [Reading.outcome_of_markerFree hr] at h
        obtain rfl : r.folded.text = t := Except.ok.inj h
        apply Reading.foldMarkers_text (Reading.normal_folded hr) hp
        intro a ha
        exact hfit.of_infix (Reading.infix_of_mem_atoms (Reading.atoms_folded r ha))

/-- The groups lose the parentheses they do not need. What is left still has the tokens of two
markers, one behind a minus and one behind a parenthesis that nothing closes. -/
theorem foldMarkers_idempotent_of_groups :
    foldMarkers "x - 1 eq 1 AND ((A eq 2 or (B eq 3))) and 1 eq 1 or (D eq 4 and 1 eq 1".toList =
        .ok "x - 1 eq 1 and (A eq 2 or B eq 3) or (D eq 4 and 1 eq 1".toList ∧
      (scan "x - 1 eq 1 and (A eq 2 or B eq 3) or (D eq 4 and 1 eq 1".toList).toOption.any
        (fun found => hasMarker found.lexemes) = true ∧
      foldMarkers "x - 1 eq 1 and (A eq 2 or B eq 3) or (D eq 4 and 1 eq 1".toList =
        .ok "x - 1 eq 1 and (A eq 2 or B eq 3) or (D eq 4 and 1 eq 1".toList := by
  have hfold : foldMarkers
      "x - 1 eq 1 AND ((A eq 2 or (B eq 3))) and 1 eq 1 or (D eq 4 and 1 eq 1".toList =
        .ok "x - 1 eq 1 and (A eq 2 or B eq 3) or (D eq 4 and 1 eq 1".toList := by
    cbv
  exact ⟨hfold, by cbv, foldMarkers_idempotent hfold⟩

end WhereFilter
