import WhereFilter.Proofs.Reading.Written

namespace WhereFilter

theorem Fit.of_infix {ls a : List Lexeme} {rest : Text} (h : Fit ls rest) (ha : a <:+: ls) :
    ∃ rest', Fit a rest' := by
  obtain ⟨xs, ys, rfl⟩ := ha
  exact ⟨_, (fit_append.mp (fit_append.mp h).1).2⟩

theorem infix_of_mem_parts {w : Text} {ls : List Lexeme} : ∀ p ∈ parts w 0 ls, p <:+: ls := by
  refine parts_induction (motive := fun ls ps => ∀ p ∈ ps, p <:+: ls) ?_ ?_ ls
  · simp
  · intro p c rest _ _ _ ih
    have hrest : rest <:+: p ++ c :: rest := ⟨p ++ [c], [], by simp⟩
    exact List.forall_mem_cons.mpr
      ⟨(List.prefix_append p _).isInfix, fun q hq => (ih q hq).trans hrest⟩

namespace Reading

theorem mem_atoms_chain (join : Reading → Reading → Reading)
    (hj : ∀ l r, (join l r).atoms = l.atoms ++ r.atoms) {rs : List Reading} (hn : rs ≠ [])
    {a : List Lexeme} (h : a ∈ (chain join rs).atoms) : ∃ r ∈ rs, a ∈ r.atoms := by
  induction rs with
  | nil => exact absurd rfl hn
  | cons r rs ih =>
    cases rs with
    | nil => exact ⟨r, by simp, h⟩
    | cons s rs =>
      rw [chain_cons join r (List.cons_ne_nil s rs), hj] at h
      rcases List.mem_append.mp h with h | h
      · exact ⟨r, by simp, h⟩
      · obtain ⟨q, hq, ha⟩ := ih (List.cons_ne_nil s rs) h
        exact ⟨q, List.mem_cons_of_mem _ hq, ha⟩

/-- Atoms are stretches of what is read. -/
theorem infix_of_mem_atoms {ls a : List Lexeme} (h : a ∈ (ofLexemes ls).atoms) : a <:+: ls := by
  rw [ofLexemes_eq] at h
  obtain ⟨_, hr, h⟩ := mem_atoms_chain .either (fun _ _ => rfl)
    (by simp [parts_ne_nil]) h
  obtain ⟨part, hpart, rfl⟩ := List.mem_map.mp hr
  obtain ⟨_, hr, h⟩ := mem_atoms_chain .both (fun _ _ => rfl)
    (by simp [parts_ne_nil]) h
  obtain ⟨piece, hpiece, rfl⟩ := List.mem_map.mp hr
  have hin : piece <:+: ls := (infix_of_mem_parts _ hpiece).trans (infix_of_mem_parts _ hpart)
  refine List.IsInfix.trans ?_ hin
  unfold ofPiece at h
  split at h
  · next inner hi =>
    obtain ⟨o, c, rfl, -, -, -, -⟩ := inside?_eq_some_iff.mp hi
    have hlt : inner.length < ls.length := by
      have := hin.length_le
      simp at this
      omega
    exact (infix_of_mem_atoms h).trans ⟨[o], [c], by simp⟩
  · split at h
    · simp [atoms] at h
    · simp only [atoms, List.mem_singleton] at h
      exact h ▸ List.infix_rfl
termination_by ls.length

end Reading

theorem length_of_marker? {m : List Lexeme} (h : (marker? m).isSome = true) : m.length = 3 := by
  match m with
  | [] | [_] | [_, _] | _ :: _ :: _ :: _ :: _ => cases h
  | [_, _, _] => rfl

theorem hasMarker_iff {ls : List Lexeme} :
    hasMarker ls = true ↔ ∃ m, m <:+: ls ∧ (marker? m).isSome = true := by
  induction ls with
  | nil =>
    constructor
    · intro h
      cases h
    · rintro ⟨m, hm, hs⟩
      rw [List.infix_nil.mp hm] at hs
      cases hs
  | cons l ls ih =>
    rw [hasMarker, Bool.or_eq_true, ih]
    constructor
    · rintro (h | ⟨m, hm, hs⟩)
      · exact ⟨_, (List.take_prefix 3 _).isInfix, h⟩
      · exact ⟨m, hm.trans (List.suffix_cons l ls).isInfix, hs⟩
    · rintro ⟨m, hm, hs⟩
      rcases List.infix_cons_iff.mp hm with hp | hi
      · left
        rw [← length_of_marker? hs, ← List.prefix_iff_eq_take.mp hp]
        exact hs
      · exact .inr ⟨m, hi, hs⟩

/-- Folding markers keeps what a text says: for whatever truth `v` gives to atoms, the text left
holds where the one given does, and no marker is left in it but one that is all of it. A text is
refused only if it never holds. -/
theorem foldMarkers_keeps_truth {s : Text} {found : Scan} (hs : scan s = .ok found) :
    match foldMarkers s with
    | .ok t => ∃ kept, scan t = .ok kept ∧
        (∀ v, (Reading.ofLexemes kept.lexemes).truth v =
          (Reading.ofLexemes found.lexemes).truth v) ∧
        ((∃ m, m <:+: found.lexemes ∧ (marker? m).isSome = true) →
          t = "1 eq 1".toList ∨ (Reading.ofLexemes kept.lexemes).MarkerFree)
    | .error .vacuous => ∀ v, (Reading.ofLexemes found.lexemes).truth v = false
    | .error _ => False := by
  have hfit := (scan_eq_ok_iff.mp hs).2.1
  let r := Reading.ofLexemes found.lexemes
  have hp : Reading.Printed .last .whole r.folded :=
    (Reading.printed_ofLexemes (p := .last) trivial).folded
  have htext : tokensOf r.folded.text = .ok r.folded.tokens := by
    apply Reading.tokensOf_text
    intro a ha
    exact hfit.of_infix (Reading.infix_of_mem_atoms (Reading.atoms_folded r ha))
  -- the folded text is scanned and read as the folded reading, gaps apart
  have hback : ∃ kept, scan r.folded.text = .ok kept ∧
      (Reading.ofLexemes kept.lexemes).bare = r.folded.bare := by
    cases hk : scan r.folded.text with
    | error e => simp [tokensOf, hk, Except.map] at htext
    | ok kept =>
      simp only [tokensOf, hk, Except.map, Except.ok.injEq] at htext
      exact ⟨kept, rfl, hp.bare_ofLexemes htext⟩
  have htruth {kept : Scan} (hb : (Reading.ofLexemes kept.lexemes).bare = r.folded.bare)
      (v : List Token → Bool) : (Reading.ofLexemes kept.lexemes).truth v = r.truth v := by
    rw [← Reading.truth_bare, hb, Reading.truth_bare, Reading.truth_folded]
  cases hm : hasMarker found.lexemes with
  | false =>
    have hno : ¬∃ m, m <:+: found.lexemes ∧ (marker? m).isSome = true := by
      rw [← hasMarker_iff, hm]
      simp
    simp only [foldMarkers, hs, hm]
    exact ⟨found, hs, fun _ => rfl, fun h => absurd h hno⟩
  | true =>
    simp only [foldMarkers, hs, hm, if_true, Reading.verdict_eq_outcome]
    rcases Reading.settled_folded r with h | h | h
    · obtain ⟨kept, hk, hb⟩ := hback
      rw [h] at hk
      rw [h]
      exact ⟨kept, hk, htruth hb, fun _ => .inl rfl⟩
    · rw [h]
      intro v
      rw [← Reading.truth_folded, h]
      rfl
    · obtain ⟨kept, hk, hb⟩ := hback
      rw [Reading.outcome_of_markerFree h]
      refine ⟨kept, hk, htruth hb, fun _ => .inr ?_⟩
      rw [← Reading.markerFree_bare, hb, Reading.markerFree_bare]
      exact h

/-- One branch never holds, and the other loses its parentheses and its marker. -/
theorem foldMarkers_keeps_truth_of_branches :
    ∃ found kept,
      scan "1 eq 0 and A eq 1 or (1 eq 1 and (B eq 2 or C eq 3))".toList = .ok found ∧
      foldMarkers "1 eq 0 and A eq 1 or (1 eq 1 and (B eq 2 or C eq 3))".toList =
        .ok "(B eq 2 or C eq 3)".toList ∧
      scan "(B eq 2 or C eq 3)".toList = .ok kept ∧
      ∀ v, (Reading.ofLexemes kept.lexemes).truth v =
        (Reading.ofLexemes found.lexemes).truth v := by
  have hf : foldMarkers "1 eq 0 and A eq 1 or (1 eq 1 and (B eq 2 or C eq 3))".toList =
      .ok "(B eq 2 or C eq 3)".toList := by cbv
  cases hs : scan "1 eq 0 and A eq 1 or (1 eq 1 and (B eq 2 or C eq 3))".toList with
  | error e => simp only [foldMarkers, hs, reduceCtorEq] at hf
  | ok found =>
    have h := foldMarkers_keeps_truth hs
    rw [hf] at h
    obtain ⟨kept, hk, ht, -⟩ := h
    exact ⟨found, kept, rfl, hf, hk, ht⟩

end WhereFilter
