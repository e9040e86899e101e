import WhereFilter.Proofs.Layout.Passes

namespace WhereFilter

open Text

theorem cut_concat {p : α → Bool} {a : α} (ha : p a = true) (l : List α) :
    cut p (l ++ [a]) = cut p l ++ [[]] := by
  induction l with
  | nil => simp [cut, ha]
  | cons b l ih =>
    rw [List.cons_append, cut, cut, ih]
    split
    · rfl
    · cases h : cut p l with
      | nil => exact absurd h (cut_ne_nil p l)
      | cons piece pieces => rfl

namespace Text

/-- The words of a text are its first run and the words behind it. -/
theorem words_eq {s : Text} (hn : skipBlanks s ≠ []) :
    words s = (skipBlanks s).takeWhile (fun c => !isBlank c) ::
      words ((skipBlanks s).dropWhile fun c => !isBlank c) := by
  have hskip : words s = words (skipBlanks s) := by
    have h := words_of_blanks (b := s.takeWhile isBlank) holds_of_mem_takeWhile (skipBlanks s)
    rwa [skipBlanks, List.takeWhile_append_dropWhile] at h
  have hrun := head?_dropWhile (fun c => !isBlank c) (skipBlanks s)
  have hhead : (skipBlanks s).head?.any isBlank = false := head?_dropWhile isBlank s
  generalize skipBlanks s = t at *
  have hne : t.takeWhile (fun c => !isBlank c) ≠ [] := by
    obtain ⟨c, t, rfl⟩ := List.exists_cons_of_ne_nil hn
    have hc : isBlank c = false := by simpa using hhead
    simp [hc]
  have hblank : ∀ c, (t.dropWhile fun c => !isBlank c).head? = some c → isBlank c = true := by
    intro c hc
    rw [hc] at hrun
    simpa using hrun
  have h := words_of_run (fun c hc => by simpa using holds_of_mem_takeWhile c hc) hne hblank
  rw [List.takeWhile_append_dropWhile] at h
  rw [hskip, h]

theorem words_of_skipBlanks {s : Text} (h : skipBlanks s = []) : words s = [] := by
  have hall := words_of_blanks (b := s.takeWhile isBlank) holds_of_mem_takeWhile (skipBlanks s)
  rw [skipBlanks, List.takeWhile_append_dropWhile] at hall
  rw [hall, ← skipBlanks, h]
  rfl

theorem words_squash (s : Text) : words s.squash = words s := by
  induction hn : s.length using Nat.strongRecOn generalizing s with
  | ind n ih =>
    subst hn
    by_cases hskip : skipBlanks s = []
    · have hsquash : skipBlanks s.squash = [] := by rw [skipBlanks_squash, hskip, squash_nil]
      rw [words_of_skipBlanks hskip, words_of_skipBlanks hsquash]
    · have hblind : Blind fun c => !isBlank c := blind_not blind_isBlank
      have hsquash : skipBlanks s.squash ≠ [] := by
        rwa [skipBlanks_squash, Ne, squash_eq_nil]
      have hlen : ((skipBlanks s).dropWhile fun c => !isBlank c).length < s.length := by
        have hhead : (skipBlanks s).head?.any isBlank = false := head?_dropWhile isBlank s
        have hle : (skipBlanks s).length ≤ s.length := (List.dropWhile_suffix _).length_le
        obtain ⟨c, t, ht⟩ := List.exists_cons_of_ne_nil hskip
        rw [ht] at hhead hle ⊢
        have hc : isBlank c = false := by simpa using hhead
        have hrest := (List.dropWhile_suffix (l := t) fun c => !isBlank c).length_le
        simp only [List.length_cons] at hle
        simp only [List.dropWhile_cons, hc, Bool.not_false, if_true]
        omega
      rw [words_eq hskip, words_eq hsquash, skipBlanks_squash,
        takeWhile_squash_of_solid hblind rfl, dropWhile_squash hblind]
      exact congrArg _ (ih _ hlen _ rfl)

theorem words_pad (s : Text) : words s.pad = words s := by
  rw [words, pad, cut_concat rfl, List.filter_append]
  exact List.append_nil _

/-- Where only gaps differ, respaced texts are the same. -/
theorem respace_loose {u v : Text} (h : Loose u v) : respace u = respace v := by
  have hframe (s : Text) : words (frame s) = words s :=
    (words_of_blanks (b := [' ']) (by simp [isBlank]) s.pad).trans (words_pad s)
  have hwords : words u = words v := by
    rw [← hframe u, ← hframe v, ← words_squash (frame u), ← words_squash (frame v)]
    exact congrArg words h
  rw [respace, respace, hwords]

end Text

theorem checkSupported_loose {u v : Text} (h : Loose u v) :
    Outcomes (fun _ _ => True) (checkSupported u) (checkSupported v) := by
  have hhits (s : Text) : (Phrase.unsupported.hits s).map squash =
      Phrase.unsupported.hits (frame s).squash := by
    have hs := Phrase.steady_unsupported
    rw [hs.hits_squash, frame, hs.hits_indent, hs.hits_pad]
  have hsame : (Phrase.unsupported.hits u).map squash = (Phrase.unsupported.hits v).map squash := by
    rw [hhits, hhits]
    exact congrArg _ h
  unfold checkSupported
  cases hu : Phrase.unsupported.hits u with
  | nil =>
    rw [hu] at hsame
    have hv : Phrase.unsupported.hits v = [] := by simpa using hsame.symm
    rw [hv]
    exact .ok trivial
  | cons p ps =>
    rw [hu] at hsame
    cases hv : Phrase.unsupported.hits v with
    | nil => rw [hv] at hsame; cases hsame
    | cons q qs => exact .error (.unsupported p q)

theorem names_loose {u v : Text} (h : Loose u v) : Placeholder.names u = Placeholder.names v := by
  have hhits (s : Text) :
      Placeholder.pattern.hits s = Placeholder.pattern.hits (frame s).squash := by
    have hs := steady_placeholder
    rw [hs.hits_squash, frame, hs.hits_indent, hs.hits_pad, List.map_id]
  rw [Placeholder.names, Placeholder.names, hhits u, hhits v]
  exact congrArg (fun s => (Placeholder.pattern.hits s).map Placeholder.name) h

/-- Passes that respect gaps, and one that takes them away. -/
theorem runAll_respects {b : Bindings} {ps : List Pass} (hps : ∀ p ∈ ps, Respects (p.run b))
    {f : Text → Text} (hf : ∀ {u v}, Loose u v → f u = f v) (name : String) {u v : Text}
    (h : Loose u v) : Outcomes Eq (Pass.runAll b (ps ++ [.plain name f]) u)
      (Pass.runAll b (ps ++ [.plain name f]) v) := by
  induction ps generalizing u v with
  | nil => exact .ok (hf h)
  | cons p ps ih =>
    simp only [List.mem_cons, forall_eq_or_imp] at hps
    have hp := hps.1 u v h
    simp only [List.cons_append, Pass.runAll]
    generalize p.run b u = x at hp ⊢
    generalize p.run b v = y at hp ⊢
    cases hp with
    | ok h => exact ih hps.2 h
    | error h => exact .error h

theorem Token.isWord_squash {w : Text} (hw : w.any Token.isGapChar = false) (t : Token) :
    t.squash.isWord w = t.isWord w :=
  Lexeme.isWord_squash hw ⟨[], t⟩

theorem respects_passes (b : Bindings) : ∀ p ∈ Pass.all.dropLast, Respects (p.run b) := by
  have hconnective (t : Token) : connectiveSpelling t.squash = connectiveSpelling t := by
    simp only [connectiveSpelling, Token.isWord_squash (w := "AND".toList) rfl,
      Token.isWord_squash (w := "OR".toList) rfl]
  simp only [Pass.all, List.dropLast_cons_cons, List.dropLast_singleton, List.mem_cons,
    List.not_mem_nil, or_false, forall_eq_or_imp, forall_eq]
  exact ⟨respects_dropQualifiers, respects_replace steady_coalesce fun _ => .refl _,
    respects_fillPlaceholders b, respects_replace YesNo.steady_comparison fun _ => .refl _,
    respects_expandLists, respects_respell fun _ => rfl, respects_respell fun _ => rfl,
    respects_respell hconnective, respects_replace YesNo.steady_operand fun _ => .refl _,
    respects_foldMarkers, respects_replace Wrapped.steady_clause fun b => .squash b⟩

theorem translate_loose (b : Bindings) {u v : Text} (h : Loose u v) :
    Outcomes Eq (translate b u) (translate b v) := by
  have hgate := checkSupported_loose h
  have hbound : checkBound b u = checkBound b v := by
    rw [checkBound, checkBound, names_loose h]
  have hrun : Outcomes Eq (Pass.runAll b Pass.all u) (Pass.runAll b Pass.all v) :=
    runAll_respects (respects_passes b) respace_loose "normalize_whitespace" h
  unfold translate
  rw [hbound]
  generalize checkSupported u = x at hgate ⊢
  generalize checkSupported v = y at hgate ⊢
  cases hgate with
  | error h => exact .error h
  | ok _ =>
    cases checkBound b v with
    | error e => exact .error (.refl e)
    | ok _ =>
      generalize Pass.runAll b Pass.all u = x at hrun ⊢
      generalize Pass.runAll b Pass.all v = y at hrun ⊢
      cases hrun with
      | error h => exact .error h
      | @ok s t h =>
        subst h
        exact .refl (fun _ => rfl) _

/-- For each token but the first, whether it joins the one before it. -/
def Scan.joins (found : Scan) : List Bool :=
  found.lexemes.tail.map fun l => l.gap.isEmpty

/-- The texts have the same tokens, and gaps between the same of them. -/
def SameTokens (u v : Text) : Prop :=
  ∃ found found', scan u = .ok found ∧ scan v = .ok found' ∧ found.tokens = found'.tokens ∧
    found.joins = found'.joins

/-- Gaps are alike, unless one is empty. -/
theorem spaced_gap {g g' : Text} (hg : IsGap g) (hg' : IsGap g') (h : g.isEmpty = g'.isEmpty) :
    Spaced g g' := by
  have hrun {g : Text} (hg : IsGap g) (hn : g ≠ []) : squash g = [' '] := by
    have hsquash := squash_run (s := []) hg hn rfl
    rwa [List.append_nil] at hsquash
  cases g with
  | nil =>
    have hnil : g' = [] := by simpa using h.symm
    rw [hnil]
    rfl
  | cons c g =>
    have hn : g' ≠ [] := by
      rintro rfl
      cases h
    exact (hrun hg (by simp)).trans (hrun hg' hn).symm

theorem spaced_lexemes {ls ls' : List Lexeme} (hg : ∀ l ∈ ls, IsGap l.gap)
    (hg' : ∀ l ∈ ls', IsGap l.gap) (htokens : ls.map Lexeme.token = ls'.map Lexeme.token)
    (hgaps : (ls.map fun l => l.gap.isEmpty) = ls'.map fun l => l.gap.isEmpty) :
    Spaced (ls.flatMap Lexeme.text) (ls'.flatMap Lexeme.text) := by
  induction ls generalizing ls' with
  | nil =>
    have hnil : ls' = [] := by simpa using htokens.symm
    rw [hnil]
    rfl
  | cons l ls ih =>
    cases ls' with
    | nil => cases htokens
    | cons l' ls' =>
      simp only [List.map_cons, List.cons.injEq, List.mem_cons, forall_eq_or_imp] at *
      obtain ⟨ht, htokens⟩ := htokens
      obtain ⟨hgap, hgaps⟩ := hgaps
      refine Spaced.append ?_ (ih hg.2 hg'.2 htokens hgaps)
      rw [Lexeme.text, Lexeme.text, ht]
      exact (spaced_gap hg.1 hg'.1 hgap).append (.refl _)

theorem SameTokens.loose {u v : Text} (h : SameTokens u v) : Loose u v := by
  obtain ⟨⟨ls, tail⟩, ⟨ls', tail'⟩, hu, hv, htokens, hjoins⟩ := h
  obtain ⟨rfl, hf, hg⟩ := scan_eq_ok_iff.mp hu
  obtain ⟨rfl, hf', hg'⟩ := scan_eq_ok_iff.mp hv
  have hends {g g' : Text} (hg : IsGap g) (hg' : IsGap g') :
      Spaced (' ' :: g) (' ' :: g') ∧ Spaced (pad g) (pad g') :=
    ⟨spaced_gap (isGap_space.append hg) (isGap_space.append hg') rfl,
      spaced_gap (hg.append isGap_space) (hg'.append isGap_space)
        (by cases g <;> cases g' <;> rfl)⟩
  cases ls with
  | nil =>
    have hnil : ls' = [] := by simpa [Scan.tokens] using htokens.symm
    subst hnil
    exact spaced_gap (isGap_space.append (hg.append isGap_space))
      (isGap_space.append (hg'.append isGap_space)) rfl
  | cons l ls =>
    cases ls' with
    | nil => cases htokens
    | cons l' ls' =>
      obtain ⟨ht, htokens⟩ := List.cons.inj htokens
      have hrest := spaced_lexemes (fun a ha => hf.gap_of_mem (List.mem_cons_of_mem l ha))
        (fun a ha => hf'.gap_of_mem (List.mem_cons_of_mem l' ha)) htokens hjoins
      have hframe (l : Lexeme) (ls : List Lexeme) (tail : Text) :
          frame (Scan.text ⟨l :: ls, tail⟩) =
            ' ' :: l.gap ++ (l.token.text ++ (ls.flatMap Lexeme.text ++ pad tail)) := by
        simp [frame, Scan.text, Lexeme.text, pad]
      rw [Loose, hframe, hframe, ht]
      exact (hends hf.1 hf'.1).1.append
        ((Spaced.refl _).append (hrest.append (hends hg hg').2))

/-- Layout does not matter: what comes of a rule depends on its tokens, and on where gaps stand
between them, but not on the gaps themselves. -/
theorem translate_of_sameTokens {u v : Text} (h : SameTokens u v) (b : Bindings) :
    Outcomes Eq (translate b u) (translate b v) :=
  translate_loose b h.loose

theorem translate_of_sameTokens_lines :
    SameTokens "A='x'\n  AND\tB<>1".toList " A='x' AND B<>1 ".toList ∧
      Outcomes Eq (translate (Keyed.ofList []) "A='x'\n  AND\tB<>1".toList)
        (translate (Keyed.ofList []) " A='x' AND B<>1 ".toList) := by
  have h : SameTokens "A='x'\n  AND\tB<>1".toList " A='x' AND B<>1 ".toList := by
    refine ⟨_, _, by cbv, by cbv, by decide, by decide⟩
  exact ⟨h, translate_of_sameTokens h _⟩

end WhereFilter
