import WhereFilter.Proofs.Language.Values
import WhereFilter.Proofs.Rule.Gate

namespace WhereFilter

namespace Language

open Reading (Rank unspaced)

/-- The variables in `u` have values. -/
def NamesBound (b : Bindings) (tail : Text) (u s _u' : List Lexeme) : Prop :=
  ∀ n ∈ Placeholder.names (u.flatMap Lexeme.text ++ (s.flatMap Lexeme.text ++ tail)),
    b.binds n = true ∨ n ∈ Placeholder.names (s.flatMap Lexeme.text ++ tail)

theorem names_append {u : Text} (hu : '@' ∉ u) (s : Text) :
    Placeholder.names (u ++ s) = Placeholder.names s := by
  induction u with
  | nil => rfl
  | cons c u ih =>
    simp only [List.mem_cons, not_or] at hu
    have hrest := ih hu.2
    simp only [Placeholder.names, Pattern.hits] at hrest ⊢
    rw [List.cons_append, Placeholder.segments_cons (Ne.symm hu.1), List.filterMap_cons, hrest]

theorem names_placeholder {p : Placeholder} (hp : IsName p.name) (s : Text) :
    Placeholder.names (p.text ++ s) = p.name :: Placeholder.names s := by
  have hname : Placeholder.IsName p.name :=
    ⟨hp.ne_nil, fun _ hc => isWordChar_of_isNameChar (hp.isNameChar hc)⟩
  simp only [Placeholder.names, Pattern.hits, Placeholder.segments_text hname,
    List.filterMap_cons, List.map_cons]

theorem namesBound_plain {b : Bindings} (tail : Text) {u : List Lexeme}
    (hu : '@' ∉ u.flatMap Lexeme.text) (s u' : List Lexeme) : NamesBound b tail u s u' := by
  intro n hn
  rw [names_append hu] at hn
  exact .inr hn

theorem NamesBound.append {b : Bindings} {tail : Text} {u v s u' v' : List Lexeme}
    (hu : NamesBound b tail u (v ++ s) u') (hv : NamesBound b tail v s v') :
    NamesBound b tail (u ++ v) s (u' ++ v') := by
  intro n hn
  rw [List.flatMap_append, List.append_assoc, ← List.append_assoc (v.flatMap Lexeme.text),
    ← List.flatMap_append] at hn
  rcases hu n hn with h | h
  · exact .inl h
  · rw [List.flatMap_append, List.append_assoc] at h
    exact hv n h

theorem Item.namesBound {b : Bindings} {i : Item} (hi : i.Formed) (hb : i.Bound b) {g : Text}
    (hg : IsGap g) (tail : Text) (s : List Lexeme) :
    NamesBound b tail (spaced g i.tokens) s (spaced g i.tokens) := by
  have plain {j : Item} (hat : '@' ∉ j.text) :
      NamesBound b tail (spaced g j.tokens) s (spaced g j.tokens) := by
    apply namesBound_plain
    rw [text_spaced g j.tokens_ne_nil]
    intro hm
    rcases List.mem_append.mp hm with hm | hm
    · exact at_not_mem_gap hg hm
    · exact hat hm
  have numeral {n : Text} (hn : Token.Numeral n) : '@' ∉ n :=
    not_mem_numeral hn rfl (by decide)
  match i with
  | .number true digits => exact plain (by simpa [text, tokens, minus] using numeral hi)
  | .number false digits => exact plain (by simpa [text, tokens] using numeral hi)
  | .truth true | .truth false => exact plain (by simp [text, tokens, word, truthWord])
  | .literal contents =>
    have hat : '@' ∉ contents := by
      intro hm
      cases hi _ hm
    exact plain (by simpa [text, tokens, Language.literal] using hat)
  | .placeholder quoted p =>
    obtain ⟨v, hv, -⟩ := hb
    have hbinds : b.binds p.name = true := by rw [Bindings.binds, hv]; rfl
    have htext : ∃ q : Text, (q = [] ∨ q = ['\'']) ∧
        (Item.placeholder quoted p).text = q ++ (p.text ++ q) := by
      obtain ⟨hashed, n⟩ := p
      cases quoted
      · refine ⟨[], .inl rfl, ?_⟩
        cases hashed <;> simp [text, tokens, Placeholder.text, other, word]
      · exact ⟨['\''], .inr rfl, by simp [text, tokens, Language.literal]⟩
    obtain ⟨q, hq, htext⟩ := htext
    have hat : '@' ∉ q := by rcases hq with rfl | rfl <;> simp
    intro n hn
    have hitem : (spaced g (Item.placeholder quoted p).tokens).flatMap Lexeme.text =
        g ++ (q ++ (p.text ++ q)) := (text_spaced g (tokens_ne_nil _)).trans (by rw [← htext]; rfl)
    rw [hitem, List.append_assoc, names_append (at_not_mem_gap hg), List.append_assoc,
      names_append hat, List.append_assoc, names_placeholder hi, names_append hat] at hn
    rcases List.mem_cons.mp hn with rfl | hn
    · exact .inl hbinds
    · exact .inr hn

theorem at_not_mem_lexemes {ls : List Lexeme}
    (h : ∀ l ∈ ls, IsGap l.gap ∧ '@' ∉ l.token.text) : '@' ∉ ls.flatMap Lexeme.text := by
  intro hm
  obtain ⟨l, hl, hm⟩ := List.mem_flatMap.mp hm
  rcases List.mem_append.mp hm with hm | hm
  · exact at_not_mem_gap (h l hl).1 hm
  · exact (h l hl).2 hm

theorem Subject.at_not_mem {x : Subject} (hx : x.Formed) {g : Text} (hg : IsGap g) :
    '@' ∉ (x.lexemes g).flatMap Lexeme.text := by
  have hname {g : Text} (hg : IsGap g) : ∀ l ∈ x.name g, IsGap l.gap ∧ '@' ∉ l.token.text := by
    intro l hl
    unfold name at hl
    cases ht : x.table with
    | none =>
      rw [ht] at hl
      rw [List.mem_singleton.mp hl]
      exact ⟨hg, hx.column.not_mem rfl⟩
    | some t =>
      simp only [ht, List.mem_cons, List.not_mem_nil, or_false] at hl
      rcases hl with rfl | rfl | rfl
      · exact ⟨hg, (hx.table t ht).not_mem rfl⟩
      · exact ⟨isGap_nil, by simp [dot]⟩
      · exact ⟨isGap_nil, hx.column.not_mem rfl⟩
  apply at_not_mem_lexemes
  intro l hl
  unfold lexemes at hl
  cases hk : x.call with
  | none =>
    rw [hk] at hl
    exact hname hg l hl
  | some k =>
    have hcall := hx.call k hk
    simp only [hk, List.mem_cons, List.mem_append, List.not_mem_nil, or_false] at hl
    rcases hl with rfl | rfl | hl | rfl | rfl | rfl
    · exact ⟨hg, hcall.spelling.at_not_mem (by decide) (by decide)⟩
    · exact ⟨hcall.beforeOpen, by simp [opening]⟩
    · exact hname hcall.inside l hl
    · exact ⟨hcall.beforeComma, by simp [comma]⟩
    · exact ⟨hcall.behindComma, by simp [literal, hcall.contents.2]⟩
    · exact ⟨hcall.beforeClose, by simp [closing]⟩

theorem namesBound_entries {b : Bindings} {e : Entry} {es : List Entry}
    (h : ∀ f ∈ e :: es, f.Formed) (hb : ∀ f ∈ e :: es, f.item.Bound b) (tail : Text)
    (s : List Lexeme) : NamesBound b tail (entries e es) s (entries e es) := by
  have sign {g : Text} (hg : IsGap g) {t : Token} (ht : '@' ∉ t.text) (s : List Lexeme) :
      NamesBound b tail [⟨g, t⟩] s [⟨g, t⟩] :=
    namesBound_plain tail (at_not_mem_lexemes (by simpa using ⟨hg, ht⟩)) s _
  induction es generalizing e with
  | nil =>
    have he := h e (by simp)
    have hitem := e.item.namesBound he.item (hb e (by simp)) he.gap tail
    exact (hitem _).append (sign he.behind (by simp [closing]) s)
  | cons f es ih =>
    have he := h e (by simp)
    have hitem := e.item.namesBound he.item (hb e (by simp)) he.gap tail
    have hrest := ih (e := f) (fun a ha => h a (List.mem_cons_of_mem e ha))
      fun a ha => hb a (List.mem_cons_of_mem e ha)
    exact (hitem _).append ((sign he.behind (by simp [comma]) _).append hrest)

theorem Clause.namesBound {b : Bindings} {c : Clause} (hc : c.Formed)
    (hb : c.ForItems (Item.Bound b)) {g : Text} (hg : IsGap g) (tail : Text) (s : List Lexeme) :
    NamesBound b tail (c.lexemes g) s (c.lexemes g) := by
  have sign {g : Text} (hg : IsGap g) {t : Token} (ht : '@' ∉ t.text) (s : List Lexeme) :
      NamesBound b tail [⟨g, t⟩] s [⟨g, t⟩] :=
    namesBound_plain tail (at_not_mem_lexemes (by simpa using ⟨hg, ht⟩)) s _
  have subject {x : Subject} (hx : x.Formed) (s : List Lexeme) :
      NamesBound b tail (x.lexemes g) s (x.lexemes g) :=
    namesBound_plain tail (x.at_not_mem hx hg) s _
  match c with
  | .compare left before relation behind right =>
    obtain ⟨hl, hbefore, hbehind, hr, -⟩ := hc
    have hsign := sign hbefore (at_not_mem_relation relation)
    cases left with
    | subject x =>
      have hright := right.namesBound hr hb hbehind tail s
      exact (subject hl _).append ((hsign _).append hright)
    | item i =>
      have hright := right.namesBound hr hb.2 hbehind tail s
      exact (i.namesBound hl hb.1 hg tail _).append ((hsign _).append hright)
  | .member x negation membership beforeOpen first rest =>
    obtain ⟨hx, hn, hm, ho, he⟩ := hc
    have spelled {w : Text} {n : Spelling} (hn : n.Of w) (hne : w ≠ [])
        (hw : w.all Char.isAlpha = true) (s : List Lexeme) :
        NamesBound b tail [n.lexeme] s [n.lexeme] := sign hn.gap (hn.spells.at_not_mem hne hw) s
    have hlist := (spelled hm (by decide) (by decide) _).append
      ((sign (t := opening) ho (by simp [opening]) _).append (namesBound_entries he hb tail s))
    cases negation with
    | none => exact (subject hx _).append hlist
    | some n =>
      exact (subject hx _).append ((spelled (hn n rfl) (by decide) (by decide) _).append hlist)

theorem carries_namesBound (b : Bindings) (tail : Text) :
    Carries (NamesBound b tail) id .clause fun c => c.Formed ∧ c.ForItems (Item.Bound b) := by
  have sign {g : Text} (hg : IsGap g) {t : Token} (ht : '@' ∉ t.text) (s u' : List Lexeme) :
      NamesBound b tail [⟨g, t⟩] s u' :=
    namesBound_plain tail (at_not_mem_lexemes (by simpa using ⟨hg, ht⟩)) s u'
  refine ⟨NamesBound.append, ?_, ?_, ?_, ?_⟩
  · intro g s hg
    exact sign hg (by simp [opening]) s _
  · intro g s hg
    exact sign hg (by simp [closing]) s _
  · intro j w s hj hw _
    have hat : '@' ∉ j.text := by
      rcases hw with rfl | rfl <;> exact hj.spells.at_not_mem (by decide) (by decide)
    exact sign hj.before hat s _
  · intro c g s hc hg _
    exact c.namesBound hc.1 hc.2 hg tail s

/-- A rule passes the gate for its variables if its clauses have values for theirs. -/
theorem checkBound_text {b : Bindings} {r : Rule k}
    (hr : r.Formed fun c => c.Formed ∧ c.ForItems (Item.Bound b)) {lead tail : Text}
    (hlead : IsGap lead) (htail : IsGap tail) : checkBound b (r.text lead tail) = .ok () := by
  have hnames := (carries_namesBound b tail).rule (fun _ h => h.1) hr hlead .nil
  have htail : Placeholder.names tail = [] := by
    have h := names_append (at_not_mem_gap htail) []
    rw [List.append_nil] at h
    exact h
  rw [checkBound_eq_ok_iff]
  intro n hn
  rcases hnames n hn with h | h
  · exact h
  · rw [List.flatMap_nil, List.nil_append, htail] at h
    cases h

end Language

end WhereFilter
