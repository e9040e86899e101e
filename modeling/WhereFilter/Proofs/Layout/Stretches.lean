import WhereFilter.Proofs.Layout.Lexemes

namespace WhereFilter

open Text

namespace Stretches

/-- Stretches that differ in gaps alone. -/
def Spaced (st st' : Stretches) : Prop :=
  Text.Spaced st.lead st'.lead ∧
    List.Forall₂ (fun x y => Text.Spaced x.1 y.1 ∧ Text.Spaced x.2 y.2) st.literals st'.literals

/-- The contents of a literal are squashed with it. -/
theorem contents_squash {t : Token} (ht : t.Formed) (hk : t.kind = .literal) :
    Text.Spaced t.squash.contents t.contents := by
  obtain ⟨kind, text⟩ := t
  cases hk
  obtain ⟨b, -, rfl⟩ := ht
  have htext : Text.squash ('\'' :: b ++ ['\'']) = '\'' :: b.squash ++ ['\''] := by
    rw [List.cons_append, squash_solid rfl, squash_append_solid rfl]
    rfl
  simp only [Token.contents, Token.squash, htext]
  simpa using Text.Spaced.squash b

theorem spaced_ofLexemes {ls : List Lexeme} {rest : Text} (hf : Fit ls rest) (tail : Text) :
    Spaced (ofLexemes tail.squash (ls.map Lexeme.squash)) (ofLexemes tail ls) := by
  induction ls with
  | nil => exact ⟨.squash tail, .nil⟩
  | cons l ls ih =>
    have hrest := ih hf.2.2.2
    rw [List.map_cons, ofLexemes, ofLexemes, Lexeme.is_squash]
    split
    · next hk =>
      have hkind : l.token.kind = .literal := by simpa [Lexeme.is] using hk
      exact ⟨.squash l.gap, .cons ⟨contents_squash hf.2.1 hkind, hrest.1⟩ hrest.2⟩
    · exact ⟨l.spaced_text.append hrest.1, hrest.2⟩

theorem spaced_fill_text (b : Bindings) (render : Value → Text) {u v : Text}
    (h : Text.Spaced u v) :
    Text.Spaced (Placeholder.fill b render u) (Placeholder.fill b render v) := by
  have hsquash (s : Text) : Text.Spaced (Placeholder.fill b render s.squash)
      (Placeholder.fill b render s) :=
    steady_placeholder.replace_squash (fun _ => .refl _) s
  have hu := hsquash u
  rw [h] at hu
  exact hu.symm.trans (hsquash v)

theorem spaced_fill (b : Bindings) {st st' : Stretches} (h : Spaced st st') :
    Text.Spaced (st.fill b) (st'.fill b) := by
  obtain ⟨lead, literals⟩ := st
  obtain ⟨lead', literals'⟩ := st'
  obtain ⟨hlead, hliterals⟩ := h
  dsimp only at hlead hliterals
  induction hliterals generalizing lead lead' with
  | nil =>
    simpa [fill] using spaced_fill_text b Value.operand hlead
  | @cons x y rest rest' hxy hrest ih =>
    obtain ⟨contents, after⟩ := x
    obtain ⟨contents', after'⟩ := y
    rw [fill_cons, fill_cons]
    refine (spaced_fill_text b _ hlead).append (.cons '\'' ?_)
    exact (spaced_fill_text b _ hxy.1).append ((ih after after' hxy.2).cons '\'')

/-- A space behind the last stretch. -/
def padded (lead : Text) : List (Text × Text) → Stretches
  | [] => ⟨lead.pad, []⟩
  | (contents, after) :: rest =>
    ⟨lead, (contents, (padded after rest).lead) :: (padded after rest).literals⟩

theorem padded_append (u lead : Text) (literals : List (Text × Text)) :
    padded (u ++ lead) literals =
      { padded lead literals with lead := u ++ (padded lead literals).lead } := by
  cases literals with
  | nil => simp [padded, pad_append]
  | cons x rest => rfl

theorem ofLexemes_pad (tail : Text) (ls : List Lexeme) :
    ofLexemes tail.pad ls = padded (ofLexemes tail ls).lead (ofLexemes tail ls).literals := by
  induction ls with
  | nil => rfl
  | cons l ls ih =>
    rw [ofLexemes, ofLexemes]
    split
    · simp only [ih, padded]
    · simp only [ih, padded_append]

theorem fill_padded (b : Bindings) (lead : Text) (literals : List (Text × Text)) :
    (padded lead literals).fill b = pad (fill b ⟨lead, literals⟩) := by
  induction literals generalizing lead with
  | nil =>
    simp only [padded, fill, List.flatMap_nil, List.append_nil]
    exact steady_placeholder.replace_pad lead
  | cons x rest ih =>
    obtain ⟨contents, after⟩ := x
    rw [padded, fill_cons, fill_cons, ih, pad_append, pad_append, pad_cons]

theorem ofLexemes_indent (found : Scan) : ofLexemes found.indent.tail found.indent.lexemes =
    { ofLexemes found.tail found.lexemes with
      lead := ' ' :: (ofLexemes found.tail found.lexemes).lead } := by
  obtain ⟨ls, tail⟩ := found
  cases ls with
  | nil => rfl
  | cons l ls =>
    have his : l.indent.is .literal = l.is .literal := rfl
    simp only [Scan.indent, ofLexemes, his]
    split <;> rfl

theorem fill_indent (b : Bindings) (st : Stretches) :
    fill b { st with lead := ' ' :: st.lead } = ' ' :: st.fill b := by
  have hlead : Placeholder.fill b Value.operand (' ' :: st.lead) =
      ' ' :: Placeholder.fill b Value.operand st.lead :=
    steady_placeholder.replace_indent st.lead
  simp only [fill, hlead, List.cons_append]

end Stretches

end WhereFilter
