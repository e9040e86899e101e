import WhereFilter.Proofs.Rule.Filled

namespace WhereFilter

open Token

namespace Text

/-- What a literal with the contents `t` says: a quote for each that is written twice. -/
def undouble : Text → Text
  | '\'' :: '\'' :: t => '\'' :: undouble t
  | c :: t => c :: undouble t
  | [] => []

theorem undouble_cons {c : Char} (hc : c ≠ '\'') (t : Text) :
    undouble (c :: t) = c :: undouble t := by
  conv_lhs => unfold undouble
  split <;> simp_all

theorem undouble_append {s : Text} (hs : Paired '\'' s) (t : Text) :
    undouble (s ++ t) = undouble s ++ undouble t := by
  induction hs with
  | nil => rfl
  | pair _ ih => simp [undouble, ih]
  | plain hc _ ih => simp [undouble_cons hc, ih]

theorem undouble_of_not_mem {s : Text} (hs : '\'' ∉ s) : undouble s = s := by
  induction s with
  | nil => rfl
  | cons c s ih =>
    simp only [List.mem_cons, not_or] at hs
    rw [undouble_cons (Ne.symm hs.1), ih hs.2]

/-- What has no quote in it stands in the contents as it does in what they say. -/
theorem of_undouble {s u t : Text} (hu : '\'' ∉ u) (h : undouble s = u ++ t) :
    ∃ r, s = u ++ r := by
  induction u generalizing s with
  | nil => exact ⟨s, rfl⟩
  | cons d u ih =>
    simp only [List.mem_cons, not_or] at hu
    unfold undouble at h
    split at h
    · exact absurd (List.cons.inj h).1 hu.1
    · next c s _ =>
      obtain ⟨rfl, hs⟩ := List.cons.inj h
      obtain ⟨r, rfl⟩ := ih hu.2 hs
      exact ⟨r, rfl⟩
    · cases h

end Text

namespace Value

/-- The value as it is, and a truth by its letter. -/
def plain : Value → Text
  | .yesNo b => [yesNoLetter b]
  | .number x => x.text
  | .text t => t

theorem undouble_doubleQuotes (t : Text) : Text.undouble (doubleQuotes t) = t := by
  induction t with
  | nil => rfl
  | cons c t ih =>
    simp only [doubleQuotes, List.flatMap_cons] at ih ⊢
    split
    · next hc => simp [hc, Text.undouble, ih]
    · next hc => simp [Text.undouble_cons hc, ih]

theorem undouble_inLiteral (v : Value) : Text.undouble v.inLiteral = v.plain := by
  match v with
  | .yesNo true => rfl
  | .yesNo false => rfl
  | .number x => exact Text.undouble_of_not_mem x.quote_not_mem_text
  | .text t => exact undouble_doubleQuotes t

end Value

namespace Placeholder

variable {b : Bindings} {say : Value → Text}

/-- From left to right each placeholder with a value is replaced by what `say` makes of the value,
and all else is kept. What has been put in is not read again. -/
inductive Filled (b : Bindings) (say : Value → Text) : Text → Text → Prop
  | nil : Filled b say [] []
  | bound {p : Placeholder} {v : Value} {s t : Text} :
      IsName p.name → b.lookup? p.name = some v → Filled b say s t →
      Filled b say (p.text ++ s) (say v ++ t)
  | unbound {p : Placeholder} {s t : Text} :
      IsName p.name → b.lookup? p.name = none → Filled b say s t →
      Filled b say (p.text ++ s) (p.text ++ t)
  | plain {c : Char} {s t : Text} :
      (∀ (p : Placeholder) r, IsName p.name → c :: s ≠ p.text ++ r) → Filled b say s t →
      Filled b say (c :: s) (c :: t)

theorem Filled.written {p : Placeholder} {s t : Text} (hp : IsName p.name)
    (h : Filled b say s t) : Filled b say (p.text ++ s) (written b say p ++ t) := by
  rw [Placeholder.written]
  cases hv : b.lookup? p.name with
  | some v => exact .bound hp hv h
  | none => exact .unbound hp hv h

theorem ne_text_of_pattern {s : Text} (h : pattern none s = none) (p : Placeholder) (r : Text)
    (hp : IsName p.name) : s ≠ p.text ++ r := by
  rintro rfl
  rw [pattern_text none hp] at h
  cases h

theorem fill_item {c : Char} {s : Text}
    (hg : pattern.segments (c :: s) = .item c :: pattern.segments s) :
    fill b say (c :: s) = c :: fill b say s := by
  rw [fill_eq_write, hg, write, fill_eq_write]

theorem fill_hit {p : Placeholder} {s : Text}
    (hg : pattern.segments (p.text ++ s) = .hit p :: pattern.segments s) :
    fill b say (p.text ++ s) = written b say p ++ fill b say s := by
  rw [fill_eq_write, hg, write, fill_eq_write]

theorem filled_fill (b : Bindings) (say : Value → Text) (s : Text) :
    Filled b say s (fill b say s) := by
  -- a placeholder is longer than one character
  induction hn : s.length using Nat.strongRecOn generalizing s with
  | _ n ih =>
    subst hn
    rcases segments_cases s with rfl | ⟨c, r, rfl, hnone, hg⟩ | ⟨p, r, rfl, hp, hg⟩
    · rw [fill_nil]
      exact .nil
    · rw [fill_item hg]
      exact .plain (ne_text_of_pattern hnone) (ih _ (by simp) r rfl)
    · rw [fill_hit hg]
      have hlen := List.length_pos_iff.mpr (text_ne_nil p)
      exact .written (isName_of_pattern hp) (ih _ (by simp; omega) r rfl)

/-- What a filled literal says is what the literal said, filled with the values as they are. -/
theorem filled_undouble (b : Bindings) {s : Text} (hs : Paired '\'' s) :
    Filled b Value.plain (Text.undouble s) (Text.undouble (fill b Value.inLiteral s)) := by
  have quote_not_mem {p : Placeholder} (hp : IsName p.name) : '\'' ∉ p.text :=
    barrier_not_mem_text rfl hp
  induction hn : s.length using Nat.strongRecOn generalizing s with
  | _ n ih =>
    subst hn
    rcases segments_cases s with rfl | ⟨c, r, rfl, hnone, hg⟩ | ⟨p, r, rfl, hp, hg⟩
    · rw [fill_nil]
      exact .nil
    · rw [fill_item hg]
      cases hs with
      | @pair r hr =>
        -- no placeholder starts between the quotes of a pair
        rw [fill_item (segments_cons (by decide))]
        refine .plain (fun p t hp he => ?_) (ih _ (by simp only [List.length_cons]; omega) hr rfl)
        refine quote_not_mem hp ?_
        obtain ⟨d, u, hd⟩ := List.exists_cons_of_ne_nil (text_ne_nil p)
        rw [hd, List.cons_append] at he
        rw [hd, (List.cons.inj he).1]
        exact List.mem_cons_self
      | plain hc hr =>
        rw [Text.undouble_cons hc, Text.undouble_cons hc]
        refine .plain (fun p t hp he => ?_) (ih _ (by simp) hr rfl)
        rw [← Text.undouble_cons hc] at he
        obtain ⟨u, hu⟩ := Text.of_undouble (quote_not_mem hp) he
        exact ne_text_of_pattern hnone p u hp hu
    · have hname := isName_of_pattern hp
      have htext := quote_not_mem hname
      have hlen := List.length_pos_iff.mpr (text_ne_nil p)
      have hrest := ih _ (by simp; omega) (paired_of_append htext hs) rfl
      have hwritten : Text.undouble (written b Value.inLiteral p ++ fill b Value.inLiteral r) =
          written b Value.plain p ++ Text.undouble (fill b Value.inLiteral r) := by
        simp only [written]
        cases b.lookup? p.name with
        | some v => rw [Text.undouble_append v.paired_inLiteral, v.undouble_inLiteral]
        | none => rw [Text.undouble_append (.of_not_mem htext), Text.undouble_of_not_mem htext]
      rw [fill_hit hg, hwritten, Text.undouble_append (.of_not_mem htext),
        Text.undouble_of_not_mem htext]
      exact .written hname hrest

end Placeholder

open Placeholder (Filled)

/-- A piece for each literal of a text and one for each stretch before, between and behind them.
The piece of a literal is one literal again, and says what the literal said with the values in it. -/
inductive Pieces (b : Bindings) (tail : Text) : List Lexeme → Text → Prop
  | stretch {ls : List Lexeme} {u : Text} :
      (∀ a ∈ ls, a.token.kind ≠ .literal) →
      Filled b Value.operand (ls.flatMap Lexeme.text ++ tail) u → Pieces b tail ls u
  | literal {ls rest : List Lexeme} {l : Lexeme} {u piece t : Text} :
      (∀ a ∈ ls, a.token.kind ≠ .literal) → l.token.kind = .literal →
      Filled b Value.operand (ls.flatMap Lexeme.text ++ l.gap) u →
      tokenize piece = .ok [⟨⟨.literal, piece⟩, 0, Text.size piece⟩] →
      Filled b Value.plain (Text.undouble l.token.contents)
        (Text.undouble (Token.contents ⟨.literal, piece⟩)) →
      Pieces b tail rest t → Pieces b tail (ls ++ l :: rest) (u ++ (piece ++ t))

theorem tokenize_token {t : Token} (ht : t.Formed) :
    tokenize t.text = .ok [⟨t, 0, Text.size t.text⟩] := by
  have hscan : scan t.text = .ok ⟨[⟨[], t⟩], []⟩ :=
    scan_eq_ok_iff.mpr ⟨by simp [Scan.text, Lexeme.text],
      ⟨isGap_nil, ht, .of_breaks breaks_nil, trivial⟩, isGap_nil⟩
  rw [tokenize, hscan]
  simp [Except.map, place]

/-- The literal of some contents is filled to a literal that says what they say, filled. -/
theorem fill_literal (b : Bindings) {contents piece : Text} (h : Paired '\'' contents)
    (hpiece : piece = '\'' :: Placeholder.fill b Value.inLiteral contents ++ ['\'']) :
    tokenize piece = .ok [⟨⟨.literal, piece⟩, 0, Text.size piece⟩] ∧
      Filled b Value.plain (Text.undouble contents)
        (Text.undouble (Token.contents ⟨.literal, piece⟩)) := by
  refine ⟨tokenize_token (t := ⟨.literal, piece⟩) ?_, ?_⟩
  · exact ⟨_, Placeholder.paired_fill_inLiteral b h, hpiece⟩
  · have hcontents : Token.contents ⟨.literal, piece⟩ =
        Placeholder.fill b Value.inLiteral contents := by
      simp [Token.contents, hpiece]
    rw [hcontents]
    exact Placeholder.filled_undouble b h

/-- No literal stands among `ls`, and `rest` is what is left to fill. -/
theorem pieces_fill (b : Bindings) {tail : Text} (ls : List Lexeme) {rest : List Lexeme}
    (hls : ∀ a ∈ ls, a.token.kind ≠ .literal) (hf : ∀ a ∈ rest, a.token.Formed) :
    Pieces b tail (ls ++ rest) (Stretches.fill b
      { Stretches.ofLexemes tail rest with
        lead := ls.flatMap Lexeme.text ++ (Stretches.ofLexemes tail rest).lead }) := by
  induction rest generalizing ls with
  | nil =>
    refine .stretch (by simpa using hls) ?_
    simpa [Stretches.ofLexemes, Stretches.fill] using Placeholder.filled_fill b Value.operand _
  | cons l rest ih =>
    obtain ⟨hl, hrest⟩ := List.forall_mem_cons.mp hf
    rw [Stretches.ofLexemes]
    split
    · next hk =>
      have hkind : l.token.kind = .literal := by simpa [Lexeme.is] using hk
      have hpaired : Paired '\'' l.token.contents := by
        obtain ⟨c, hc, htext⟩ : ∃ c, Paired '\'' c ∧ l.token.text = '\'' :: c ++ ['\''] := by
          simpa only [Token.Formed, hkind] using hl
        simpa [Token.contents, hkind, htext] using hc
      obtain ⟨hread, hsays⟩ := fill_literal b hpaired rfl
      have hpieces := Pieces.literal hls hkind (Placeholder.filled_fill b _ _) hread hsays
        (ih [] (by simp) hrest)
      rw [Stretches.fill_cons]
      simpa using hpieces
    · next hk =>
      have hkind : l.token.kind ≠ .literal := by simpa [Lexeme.is] using hk
      have hfront : ∀ a ∈ ls ++ [l], a.token.kind ≠ .literal := by
        intro a ha
        rcases List.mem_append.mp ha with ha | ha
        · exact hls a ha
        · rwa [List.mem_singleton.mp ha]
      simpa using ih _ hfront hrest

/-- A text that can be read is filled piece by piece, so a literal stays one literal whatever the
values are. -/
theorem fillPlaceholders_pieces (b : Bindings) {s : Text} {found : Scan} (hs : scan s = .ok found) :
    ∃ t, fillPlaceholders b s = .ok t ∧ Pieces b found.tail found.lexemes t := by
  obtain ⟨-, hfit, -⟩ := scan_eq_ok_iff.mp hs
  refine ⟨_, by rw [fillPlaceholders, hs]; rfl, ?_⟩
  exact pieces_fill b [] (by simp) fun a ha => hfit.formed_of_mem ha

/-- A value with a quote and a placeholder of its own, in a literal and outside one. -/
theorem fillPlaceholders_pieces_nested :
    ∃ found t, scan "A='x''@N@' OR B=@N@".toList = .ok found ∧
      fillPlaceholders (Keyed.ofList [("N".toList, .text "o'@N@".toList)])
        "A='x''@N@' OR B=@N@".toList = .ok t ∧
      t = "A='x''o''@N@' OR B='o''@N@'".toList ∧
      Pieces (Keyed.ofList [("N".toList, .text "o'@N@".toList)]) found.tail found.lexemes t := by
  obtain ⟨found, hs⟩ : ∃ found, scan "A='x''@N@' OR B=@N@".toList = .ok found := ⟨_, by cbv⟩
  obtain ⟨t, ht, hpieces⟩ :=
    fillPlaceholders_pieces (Keyed.ofList [("N".toList, .text "o'@N@".toList)]) hs
  have htext : fillPlaceholders (Keyed.ofList [("N".toList, .text "o'@N@".toList)])
      "A='x''@N@' OR B=@N@".toList = .ok "A='x''o''@N@' OR B='o''@N@'".toList := by cbv
  rw [ht] at htext
  exact ⟨found, t, hs, ht, Except.ok.inj htext, hpieces⟩

end WhereFilter
