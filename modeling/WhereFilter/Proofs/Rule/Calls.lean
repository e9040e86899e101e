import WhereFilter.Proofs.Language.Phrases
import WhereFilter.Proofs.Rule.Removal
import WhereFilter.Proofs.Token.Echoes

namespace WhereFilter

open WhereFilter.Language (opening closing comma isPhraseChar isBlank_of_isGapChar
  isWordChar_of_isNameChar isWordChar_of_isPhraseChar not_isWordChar_of_isBlank)

namespace Coalesce

/-- Six tokens that call `COALESCE`, in any case, with a word or a number and a literal that has no
quotes in it. -/
structure IsCall (a o b c d e : Token) : Prop where
  name : a.isWord "COALESCE".toList = true
  opens : o = opening
  operand : b.kind = .word ∨ b.kind = .number
  comma : c = comma
  literal : d.kind = .literal ∧ '\'' ∉ d.contents
  closes : e = closing

instance (a o b c d e : Token) : Decidable (IsCall a o b c d e) :=
  decidable_of_iff
    (a.isWord "COALESCE".toList = true ∧ o = opening ∧ (b.kind = .word ∨ b.kind = .number) ∧
      c = Language.comma ∧ (d.kind = .literal ∧ '\'' ∉ d.contents) ∧ e = closing)
    ⟨fun ⟨ha, ho, hb, hc, hd, he⟩ => ⟨ha, ho, hb, hc, hd, he⟩,
      fun h => ⟨h.name, h.opens, h.operand, h.comma, h.literal, h.closes⟩⟩

/-- Reads a call; the hit is the gap before it and its first operand. -/
def call : Pattern Lexeme (Text × Token) := fun _ ls =>
  match ls with
  | a :: o :: b :: c :: d :: e :: rest =>
    if IsCall a.token o.token b.token c.token d.token e.token then some ((a.gap, b.token), rest)
    else none
  | _ => none

/-- The lexemes with the first operand in place of each call. -/
def uncalled (ls : List Lexeme) : List Lexeme :=
  call.replace (fun (gap, operand) => [⟨gap, operand⟩]) ls

theorem forward_call : call.Forward := fun _ _ => rfl

theorem call_eq_some {back : Option Lexeme} {ls rest : List Lexeme} {gap : Text} {operand : Token} :
    call back ls = some ((gap, operand), rest) ↔ ∃ a o b c d e, ls = a :: o :: b :: c :: d :: e :: rest ∧
      IsCall a.token o.token b.token c.token d.token e.token ∧ gap = a.gap ∧ operand = b.token := by
  constructor
  · intro h
    unfold call at h
    split at h
    · next a o b c d e rest' =>
      split at h
      · next hcall =>
        cases h
        exact ⟨a, o, b, c, d, e, rfl, hcall, rfl, rfl⟩
      · cases h
    · cases h
  · rintro ⟨a, o, b, c, d, e, rfl, hcall, rfl, rfl⟩
    simp [call, hcall]

theorem advances_call : call.Advances := by
  rintro back ls ⟨gap, operand⟩ rest h
  obtain ⟨a, o, b, c, d, e, rfl, -⟩ := call_eq_some.mp h
  exact ⟨[a, o, b, c, d, e], by simp, rfl⟩

def isOperandChar (c : Char) : Bool :=
  isWordChar c || c == '.'

def spelled (f b₁ b₂ n b₃ b₄ c b₅ : Text) : Text :=
  f ++ b₁ ++ ['('] ++ b₂ ++ n ++ b₃ ++ [','] ++ b₄ ++ ['\''] ++ c ++ ['\''] ++ b₅ ++ [')']

/-- What is taken for a call, and its first operand. A number may stand there with its point. -/
def Takes (w n : Text) : Prop :=
  ∃ f b₁ b₂ b₃ b₄ c b₅, w = spelled f b₁ b₂ n b₃ b₄ c b₅ ∧ f.length = 8 ∧
    (∀ a ∈ f, isWordChar a = true) ∧ (∀ a ∈ b₁, isBlank a = true) ∧ (∀ a ∈ b₂, isBlank a = true) ∧
    (∀ a ∈ b₃, isBlank a = true) ∧ (∀ a ∈ b₄, isBlank a = true) ∧ '\'' ∉ c ∧
    (∀ a ∈ b₅, isBlank a = true) ∧ n ≠ [] ∧ ∀ a ∈ n, isOperandChar a = true

theorem not_blank_of_word {c : Char} (h : isWordChar c = true) : isBlank c = false := by
  by_contra hb
  rw [not_isWordChar_of_isBlank (by simpa using hb)] at h
  cases h

theorem not_blank_of_operand {c : Char} (h : isOperandChar c = true) : isBlank c = false := by
  simp only [isOperandChar, Bool.or_eq_true, beq_iff_eq] at h
  rcases h with h | rfl
  · exact not_blank_of_word h
  · rfl

theorem takes_of_coalesce {s rest n : Text} (h : coalesce none s = some (n, rest)) :
    ∃ w, s = w ++ rest ∧ Takes w n := by
  obtain ⟨f, b₁, b₂, b₃, b₄, c, b₅, rfl, hfolds, hb₁, hb₂, hb₃, hb₄, hquote, hb₅, hne, hword⟩ :=
    pieces_of_coalesce h
  have hfold : ∀ a ∈ f, isWordChar a = true := by
    intro a ha
    have hm : foldCase a ∈ "coalesce".toList := hfolds ▸ List.mem_map_of_mem ha
    have hall : "coalesce".toList.all Char.isAlpha = true := by decide
    exact isWordChar_of_isPhraseChar (List.all_eq_true.mp hall _ hm)
  refine ⟨spelled f b₁ b₂ n b₃ b₄ c b₅, by simp [spelled], f, b₁, b₂, b₃, b₄, c, b₅, rfl,
    by simpa using congrArg List.length hfolds, hfold, hb₁, hb₂, hb₃, hb₄, hquote, hb₅, hne, ?_⟩
  intro a ha
  simp [isOperandChar, hword a ha]

theorem not_operand_of_blank {c : Char} (h : isBlank c = true) : isOperandChar c = false := by
  by_contra hc
  rw [not_blank_of_operand (by simpa using hc)] at h
  cases h

theorem getLast?_any {p : Char → Bool} {l : Text} (hl : ∀ a ∈ l, p a = false) :
    l.getLast?.any p = false := by
  cases hlast : l.getLast? with
  | none => rfl
  | some a => exact hl a (List.mem_of_getLast? hlast)

theorem getLast?_append_any {p : Char → Bool} {l r : Text} (hl : l.getLast?.any p = false)
    (hr : ∀ a ∈ r, p a = false) : (l ++ r).getLast?.any p = false := by
  cases hlast : r.getLast? with
  | none => rwa [List.getLast?_eq_none_iff.mp hlast, List.append_nil]
  | some a =>
    rw [List.getLast?_append, hlast]
    exact hr a (List.mem_of_getLast? hlast)

theorem cuts_takes : Pattern.Cuts Takes id where
  ends {w n} h := by
    obtain ⟨f, b₁, b₂, b₃, b₄, c, b₅, rfl, -, -, -, -, -, -, -, -, hne, hn⟩ := h
    obtain ⟨v, a, rfl⟩ := (List.eq_nil_or_concat n).resolve_left hne
    have ha := hn a (by simp)
    refine ⟨_, ')', v, a, rfl, by simp, rfl, ?_, ?_⟩
    · exact Text.solid_of_not_blank (u := [a]) (by simpa using not_blank_of_operand ha) a (by simp)
    · rintro rfl
      revert ha
      decide +kernel
  unique {w n w' n' u u'} h h' hu := by
    obtain ⟨f, b₁, b₂, b₃, b₄, c, b₅, rfl, hf, hword, hb₁, hb₂, hb₃, hb₄, hc, hb₅, hne, hn⟩ := h
    obtain ⟨f', b₁', b₂', b₃', b₄', c', b₅', rfl, hf', hword', hb₁', hb₂', hb₃', hb₄', hc', hb₅', hne',
      hn'⟩ := h'
    have hquoteFree {c : Text} (hc : '\'' ∉ c) : ∀ a ∈ c, decide (a ≠ '\'') = true := by
      intro a ha
      simpa using fun he : a = '\'' => hc (he ▸ ha)
    have hname {l f : Text} (hf : f.length = 8) (hword : ∀ a ∈ f, isWordChar a = true) :
        (l ++ f).getLast?.any isBlank = false := by
      rw [List.getLast?_append_of_ne_nil _ (by rintro rfl; cases hf)]
      exact getLast?_any fun a ha => not_blank_of_word (hword a ha)
    have hoperand {l n : Text} (hne : n ≠ []) (hn : ∀ a ∈ n, isOperandChar a = true) :
        (l ++ n).getLast?.any isBlank = false := by
      rw [List.getLast?_append_of_ne_nil _ hne]
      exact getLast?_any fun a ha => not_blank_of_operand (hn a ha)
    have hopen {l b : Text} (hb : ∀ a ∈ b, isBlank a = true) :
        (l ++ ['('] ++ b).getLast?.any isOperandChar = false :=
      getLast?_append_any (getLast?_concat_any (by decide +kernel) _)
        fun a ha => not_operand_of_blank (hb a ha)
    -- both are read from the end on
    simp only [spelled, ← List.append_assoc] at hu
    obtain ⟨hu, -⟩ := run_inj_right (getLast?_concat_any rfl _) hb₅ (getLast?_concat_any rfl _) hb₅'
      (List.append_cancel_right hu)
    obtain ⟨hu, -⟩ := run_inj_right (getLast?_concat_any rfl _) (hquoteFree hc)
      (getLast?_concat_any rfl _) (hquoteFree hc') (List.append_cancel_right hu)
    obtain ⟨hu, -⟩ := run_inj_right (getLast?_concat_any rfl _) hb₄ (getLast?_concat_any rfl _) hb₄'
      (List.append_cancel_right hu)
    obtain ⟨hu, -⟩ := run_inj_right (hoperand hne hn) hb₃ (hoperand hne' hn') hb₃'
      (List.append_cancel_right hu)
    obtain ⟨hu, rfl⟩ := run_inj_right (hopen hb₂) hn (hopen hb₂') hn' hu
    obtain ⟨hu, -⟩ := run_inj_right (getLast?_concat_any rfl _) hb₂ (getLast?_concat_any rfl _) hb₂'
      (List.append_cancel_right hu)
    obtain ⟨hu, -⟩ := run_inj_right (hname hf hword) hb₁ (hname hf' hword') hb₁'
      (List.append_cancel_right hu)
    exact ⟨(List.append_inj' hu (hf.trans hf'.symm)).1, rfl⟩

theorem operand_of_formed {t : Token} (ht : t.Formed) (hk : t.kind = .word ∨ t.kind = .number) :
    t.text ≠ [] ∧ ∀ a ∈ t.text, isOperandChar a = true := by
  obtain ⟨c, r, hhead, -⟩ := ht.head
  refine ⟨by simp [hhead], fun a ha => ?_⟩
  obtain ⟨kind, text⟩ := t
  rcases hk with rfl | rfl
  · simp [isOperandChar, isWordChar_of_isNameChar (ht.word.2 a ha)]
  · rcases Language.mem_numeral ht ha with hd | rfl
    · simp [isOperandChar, isWordChar_of_isNameChar (Token.isNameChar_of_isDigit hd)]
    · simp [isOperandChar]

theorem name_of_formed {t : Token} (ht : t.Formed) (hw : t.isWord "COALESCE".toList = true) :
    t.text.length = 8 ∧ ∀ a ∈ t.text, isWordChar a = true := by
  obtain ⟨kind, text⟩ := t
  simp only [Token.isWord, Bool.and_eq_true, beq_iff_eq] at hw
  obtain ⟨rfl, hw⟩ := hw
  exact ⟨by simpa [Text.lower] using congrArg List.length hw,
    fun a ha => isWordChar_of_isNameChar (ht.word.2 a ha)⟩

theorem echoes_call : Pattern.Echoes coalesce id call (fun (gap, operand) => [⟨gap, operand⟩])
    Prod.fst fun (_, operand) => operand.text where
  forward := forward_coalesce
  advances := advances_coalesce
  forward_tokens := forward_call
  advances_tokens := advances_call
  writes := by simp [Lexeme.text]
  formed {ls b rest} h hls := by
    obtain ⟨gap, operand⟩ := b
    obtain ⟨a, o, b, c, d, e, rfl, -, rfl, rfl⟩ := call_eq_some.mp h
    simpa using ⟨(hls a (by simp)).1, (hls b (by simp)).2⟩
  calls := by
    refine ⟨Takes, cuts_takes, fun s d rest => takes_of_coalesce, ?_⟩
    rintro front ⟨gap, operand⟩ rest h hfront
    obtain ⟨a, o, b, c, d, e, he, hcall, rfl, rfl⟩ := call_eq_some.mp h
    obtain rfl : front = [a, o, b, c, d, e] := List.append_cancel_right he
    have hblank {l : Lexeme} (hl : l ∈ [a, o, b, c, d, e]) : ∀ x ∈ l.gap, isBlank x = true :=
      fun x hx => isBlank_of_isGapChar ((hfront l hl).1 x hx)
    obtain ⟨hlength, hname⟩ := name_of_formed (hfront a (by simp)).2 hcall.name
    obtain ⟨hne, hoperand⟩ := operand_of_formed (hfront b (by simp)).2 hcall.operand
    have hliteral := (hfront d (by simp)).2.eq_quotes (.inl ⟨hcall.literal.1, rfl⟩)
    refine ⟨spelled a.token.text o.gap b.gap b.token.text c.gap d.gap d.token.contents e.gap, ?_, _, _,
      _, _, _, _, _, rfl, hlength, hname, hblank (by simp), hblank (by simp), hblank (by simp),
      hblank (by simp), hcall.literal.2, hblank (by simp), hne, hoperand⟩
    simp [spelled, Lexeme.text, hcall.opens, hcall.comma, hcall.closes, hliteral, opening, closing,
      comma]

/-- The calls among the tokens are dropped and nothing else exactly where the text falls into calls as
the tokens do, and no operand joins what stands next to its call. -/
theorem tokensOf_dropCoalesce {s : Text} {found : Scan} (h : scan s = .ok found) :
    tokensOf (dropCoalesce s) = .ok ((uncalled found.lexemes).map Lexeme.token) ↔
      coalesce.Parted call Prod.fst (fun (_, operand) => operand.text) found.lexemes found.tail ∧
        Fit (uncalled found.lexemes) found.tail := by
  obtain ⟨rfl, hfit, htail⟩ := scan_eq_ok_iff.mp h
  exact echoes_call.tokensOf_replace_iff hfit htail

/-- A call is dropped from `coalesce(A, 'x')=B`. -/
theorem tokensOf_dropCoalesce_equals :
    ∃ found, scan "coalesce(A, 'x')=B".toList = .ok found ∧
      coalesce.Parted call Prod.fst (fun (_, operand) => operand.text) found.lexemes found.tail ∧
        Fit (uncalled found.lexemes) found.tail := by
  have hs : scan "coalesce(A, 'x')=B".toList = .ok ⟨[⟨[], .word, "coalesce".toList⟩, ⟨[], opening⟩,
      ⟨[], .word, ['A']⟩, ⟨[], comma⟩, ⟨[' '], .literal, ['\'', 'x', '\'']⟩, ⟨[], closing⟩,
      ⟨[], .equals, ['=']⟩, ⟨[], .word, ['B']⟩], []⟩ := by cbv
  have hdropped : tokensOf (dropCoalesce "coalesce(A, 'x')=B".toList) =
      .ok [⟨.word, ['A']⟩, ⟨.equals, ['=']⟩, ⟨.word, ['B']⟩] := by cbv
  have huncalled : (uncalled [⟨[], .word, "coalesce".toList⟩, ⟨[], opening⟩,
      ⟨[], .word, ['A']⟩, ⟨[], comma⟩, ⟨[' '], .literal, ['\'', 'x', '\'']⟩, ⟨[], closing⟩,
      ⟨[], .equals, ['=']⟩, ⟨[], .word, ['B']⟩]).map Lexeme.token =
        [⟨.word, ['A']⟩, ⟨.equals, ['=']⟩, ⟨.word, ['B']⟩] := rfl
  have hread := tokensOf_dropCoalesce hs
  rw [hdropped, huncalled] at hread
  exact ⟨_, hs, hread.mp rfl⟩

end Coalesce

end WhereFilter
