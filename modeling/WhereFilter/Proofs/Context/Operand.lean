import WhereFilter.Proofs.Rule.Filling
import WhereFilter.Proofs.Token.Locality

namespace WhereFilter

open Token

/-- A minus in front of a number is a token of its own. -/
theorem tokenize_negative {n : Text} (hn : Numeral n) :
    tokenize ('-' :: n) = .ok [⟨⟨.minus, ['-']⟩, 0, 1⟩, ⟨⟨.number, n⟩, 1, Text.size ('-' :: n)⟩] := by
  have hone : '-'.utf8Size = 1 := rfl
  have hfit : Fit [⟨[], ⟨.minus, ['-']⟩⟩, ⟨[], ⟨.number, n⟩⟩] [] :=
    ⟨isGap_nil, by simp [Formed, signs], trivial, isGap_nil, hn, .of_breaks breaks_nil, trivial⟩
  have hread := tokenize_lexemes hfit isGap_nil
  simpa [Lexeme.text, place, hone] using hread

namespace Value

variable {v : Value} {ps : List Placed}

/-- A value that is a number has digits. -/
def Finite : Value → Prop
  | .number .nan | .number (.infinite _) => False
  | .number (.finite _ _) | .yesNo _ | .text _ => True

/-- The tokens of a value as one operand: a literal over the whole text that says what the value
is, or a number with a minus in front or not. -/
inductive OneOperand (v : Value) : List Placed → Prop
  | literal (hcontents : contents ⟨.literal, v.operand⟩ = v.inLiteral)
      (hplain : Text.undouble v.inLiteral = v.plain) :
      OneOperand v [⟨⟨.literal, v.operand⟩, 0, Text.size v.operand⟩]
  | number : OneOperand v [⟨⟨.number, v.operand⟩, 0, Text.size v.operand⟩]
  | negative {n : Text} (hn : v.operand = '-' :: n) :
      OneOperand v [⟨⟨.minus, ['-']⟩, 0, 1⟩, ⟨⟨.number, n⟩, 1, Text.size v.operand⟩]

theorem OneOperand.kinds (h : v.OneOperand ps) :
    ps.map (·.token.kind) ∈ [[.literal], [.number], [.minus, .number]] := by
  cases h with
  | literal _ _ => simp
  | number => simp
  | negative _ => simp

/-- Quotes around a text with its own doubled make one literal. -/
theorem tokenize_quoted (hv : v.operand = '\'' :: v.inLiteral ++ ['\'']) :
    ∃ ps, tokenize v.operand = .ok ps ∧ v.OneOperand ps := by
  have hread := tokenize_token (t := ⟨.literal, v.operand⟩) ⟨_, v.paired_inLiteral, hv⟩
  exact ⟨_, hread, .literal (by simp [contents, hv]) v.undouble_inLiteral⟩

theorem tokenize_finite (negative : Bool) (m : Magnitude) :
    ∃ ps, tokenize (operand (.number (.finite negative m))) = .ok ps ∧
      OneOperand (.number (.finite negative m)) ps := by
  obtain ⟨n, hn, htext⟩ := Binary64.text_numeral negative m
  have hv : operand (.number (.finite negative m)) = if negative then '-' :: n else n := htext
  cases negative with
  | true =>
    refine ⟨_, ?_, .negative hv⟩
    rw [hv]
    exact tokenize_negative hn
  | false =>
    refine ⟨_, ?_, .number⟩
    rw [hv]
    exact tokenize_token (t := ⟨.number, n⟩) hn

theorem tokenize_of_finite (h : v.Finite) :
    ∃ ps, tokenize v.operand = .ok ps ∧ v.OneOperand ps := by
  match v with
  | .yesNo _ | .text _ => exact tokenize_quoted rfl
  | .number (.finite negative m) => exact tokenize_finite negative m
  | .number .nan | .number (.infinite _) => exact absurd h id

/-- A number without digits is read as a name. -/
theorem tokenize_of_not_finite (h : ¬ v.Finite) : ∃ ps, tokenize v.operand = .ok ps ∧
    (ps.map (·.token.kind) = [.word] ∨ ps.map (·.token.kind) = [.minus, .word]) := by
  match v with
  | .yesNo _ | .text _ | .number (.finite _ _) => exact absurd trivial h
  | .number .nan => exact ⟨[⟨⟨.word, "NaN".toList⟩, 0, 3⟩], by decide +kernel, .inl rfl⟩
  | .number (.infinite false) =>
    exact ⟨[⟨⟨.word, "inf".toList⟩, 0, 3⟩], by decide +kernel, .inl rfl⟩
  | .number (.infinite true) =>
    exact ⟨[⟨⟨.minus, ['-']⟩, 0, 1⟩, ⟨⟨.word, "inf".toList⟩, 1, 4⟩], by decide +kernel, .inr rfl⟩

/-- A value stands as one operand exactly if it is no number without digits. Those are read as a
word, with a minus in front or not. -/
theorem tokenize_operand (v : Value) : ∃ ps, tokenize v.operand = .ok ps ∧
    (v.OneOperand ps ↔ v.Finite) ∧
    (¬ v.Finite → ps.map (·.token.kind) = [.word] ∨ ps.map (·.token.kind) = [.minus, .word]) := by
  by_cases hf : v.Finite
  · obtain ⟨ps, hread, hone⟩ := tokenize_of_finite hf
    exact ⟨ps, hread, iff_of_true hone hf, fun hn => absurd hf hn⟩
  · obtain ⟨ps, hread, hword⟩ := tokenize_of_not_finite hf
    refine ⟨ps, hread, iff_of_false (fun hone => ?_) hf, fun _ => hword⟩
    have hkinds := hone.kinds
    rcases hword with hk | hk
    · rw [hk] at hkinds
      exact absurd hkinds (by decide)
    · rw [hk] at hkinds
      exact absurd hkinds (by decide)

/-- What is not a number is read as the name `NaN`. -/
theorem tokenize_operand_nan : ∃ ps, tokenize "NaN".toList = .ok ps ∧
    ¬ OneOperand (.number .nan) ps ∧
    (ps.map (·.token.kind) = [.word] ∨ ps.map (·.token.kind) = [.minus, .word]) := by
  obtain ⟨ps, hread, hone, hword⟩ := tokenize_operand (.number .nan)
  exact ⟨ps, hread, fun h => hone.mp h, hword id⟩

end Value

end WhereFilter
