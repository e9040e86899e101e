import WhereFilter.Proofs.Language.Truths
import WhereFilter.Proofs.Token.Front
import WhereFilter.Proofs.Token.Longest

namespace WhereFilter

open WhereFilter.Language (letterText literal?_eq_some isBlank_of_isGapChar not_blank_of_isNameChar
  isWordChar_of_isNameChar)
open WhereFilter.Language.Item (truthWord)

namespace YesNo


/-- A letter in quotes. -/
def letter (holds : Bool) : Token :=
  ⟨.literal, '\'' :: letterText holds ++ ['\'']⟩

def truth (holds : Bool) : Token :=
  ⟨.word, truthWord holds⟩

def operators : List Token :=
  [⟨.word, ['e', 'q']⟩, ⟨.word, ['n', 'e', 'q']⟩]

/-- What the token of `l` means behind `before`: one of the letters is a truth value if white
space alone parts it from an operator, and any other token stays. -/
def meant (before : Option Token) (l : Lexeme) : Token :=
  if before.any operators.contains && !l.gap.isEmpty then
    if l.token = letter true then truth true
    else if l.token = letter false then truth false
    else l.token
  else l.token

def meantFrom (before : Option Token) : List Lexeme → List Token
  | [] => []
  | l :: ls => meant before l :: meantFrom (some l.token) ls

/-- An operator, white space and a letter are tokens of their own between `front` and `rest`. -/
def OperandAt (ls : List Lexeme) (tail front rest : Text) : Prop :=
  ∃ before o m after holds, ls = before ++ o :: m :: after ∧ o.token ∈ operators ∧ m.gap ≠ [] ∧
    m.token = letter holds ∧ front = before.flatMap Lexeme.text ++ o.gap ∧
    rest = after.flatMap Lexeme.text ++ tail

/-- An operator, blanks and a letter are spelled between `front` and `rest`, and no word goes on
in the operator. What is before the text is `back`. -/
def SpelledAt (back : Option Char) (s front rest : Text) : Prop :=
  ∃ op gap holds, ⟨.word, op⟩ ∈ operators ∧ gap ≠ [] ∧ (∀ c ∈ gap, isBlank c = true) ∧
    s = front ++ (op ++ (gap ++ ('\'' :: letterText holds ++ '\'' :: rest))) ∧
    (front.getLast?.or back).any isWordChar = false

theorem operators_cases {op : Text} (h : ⟨.word, op⟩ ∈ operators) :
    op = ['e', 'q'] ∨ op = ['n', 'e', 'q'] := by
  simpa [operators] using h

theorem kind_of_operator {t : Token} (h : t ∈ operators) : t.kind = .word := by
  simp only [operators, List.mem_cons, List.not_mem_nil, or_false] at h
  rcases h with rfl | rfl <;> rfl

theorem isNameStart_of_operator {op : Text} (h : ⟨.word, op⟩ ∈ operators) :
    ∃ c r, op = c :: r ∧ Token.isNameStart c = true ∧ c ∈ ['e', 'n'] := by
  rcases operators_cases h with rfl | rfl
  · exact ⟨'e', _, rfl, rfl, by simp⟩
  · exact ⟨'n', _, rfl, rfl, by simp⟩

theorem isNameChar_of_operator {op : Text} (h : ⟨.word, op⟩ ∈ operators) :
    ∀ c ∈ op, Token.isNameChar c = true := by
  have hall : op.all Token.isNameChar = true := by rcases operators_cases h with rfl | rfl <;> rfl
  exact List.all_eq_true.mp hall

theorem operand_eq_some {back : Option Char} {s rest op : Text} {holds : Bool} :
    operand back s = some ((op, holds), rest) ↔ back.any isWordChar = false ∧
      ⟨.word, op⟩ ∈ operators ∧ ∃ gap, gap ≠ [] ∧ (∀ c ∈ gap, isBlank c = true) ∧
        s = op ++ (gap ++ ('\'' :: letterText holds ++ '\'' :: rest)) := by
  constructor
  · intro h
    obtain ⟨gap, he, hn, hg, hop⟩ := Language.of_operand h
    refine ⟨?_, by simpa [operators] using hop, gap, hn, hg, he⟩
    unfold operand at h
    split at h
    · cases h
    · next hb => simpa using hb
  · rintro ⟨hback, hop, gap, hn, hg, rfl⟩
    have hoperator (r : Text) : operator? (op ++ r) = some (op, r) := by
      rcases operators_cases hop with rfl | rfl <;> rfl
    have hblanks : Text.blanks? (gap ++ ('\'' :: letterText holds ++ '\'' :: rest)) =
        some (gap, '\'' :: letterText holds ++ '\'' :: rest) := by
      obtain ⟨htake, hdrop⟩ := run_append (r := '\'' :: letterText holds ++ '\'' :: rest) hg rfl
      unfold Text.blanks?
      rw [htake, hdrop]
      split
      · exact absurd rfl hn
      · rfl
    have hletter : literal? ('\'' :: letterText holds ++ '\'' :: rest) = some (holds, rest) :=
      literal?_eq_some.mpr rfl
    simp only [operand, hback, Bool.false_eq_true, if_false, hoperator, hblanks, hletter,
      Option.bind_eq_bind, Option.bind_some]

theorem spelledAt_iff {back : Option Char} {s front rest : Text} :
    SpelledAt back s front rest ↔ ∃ t hit, s = front ++ t ∧
      operand (front.getLast?.or back) t = some (hit, rest) := by
  constructor
  · rintro ⟨op, gap, holds, hop, hn, hg, rfl, hback⟩
    exact ⟨_, (op, holds), rfl, operand_eq_some.mpr ⟨hback, hop, gap, hn, hg, rfl⟩⟩
  · rintro ⟨t, ⟨op, holds⟩, rfl, h⟩
    obtain ⟨hback, hop, gap, hn, hg, rfl⟩ := operand_eq_some.mp h
    exact ⟨op, gap, holds, hop, hn, hg, rfl, hback⟩

theorem SpelledAt.unique {back : Option Char} {s front rest rest' : Text}
    (h : SpelledAt back s front rest) (h' : SpelledAt back s front rest') : rest = rest' := by
  obtain ⟨t, hit, rfl, ht⟩ := spelledAt_iff.mp h
  obtain ⟨t', hit', he, ht'⟩ := spelledAt_iff.mp h'
  rw [List.append_cancel_left he, ht'] at ht
  cases ht
  rfl

theorem getLast?_append_or (u v : List α) (back : Option α) :
    (u ++ v).getLast?.or back = v.getLast?.or (u.getLast?.or back) := by
  rw [List.getLast?_append, Option.or_assoc]

theorem spelledAt_append {back : Option Char} {u s front rest : Text} :
    SpelledAt back (u ++ s) (u ++ front) rest ↔ SpelledAt (u.getLast?.or back) s front rest := by
  simp only [spelledAt_iff, getLast?_append_or, List.append_assoc, List.append_cancel_left_eq]

/-- What becomes of a text behind `back`. -/
def valuedFrom (back : Option Char) (s : Text) : Text :=
  operand.renderFrom (fun c => [c]) (fun (op, holds) => op ++ ' ' :: truthWord holds) back s

theorem useTruthValues_eq (s : Text) : useTruthValues s = valuedFrom none s := rfl

theorem valuedFrom_nil (back : Option Char) : valuedFrom back [] = [] := rfl

theorem valuedFrom_quiet (back : Option Char) (u s : Text)
    (h : ∀ front rest, front.length < u.length → ¬SpelledAt back (u ++ s) front rest) :
    valuedFrom back (u ++ s) = u ++ valuedFrom (u.getLast?.or back) s := by
  have hnone : ∀ v a w, u = v ++ a :: w →
      operand (v.getLast?.or back) (a :: (w ++ s)) = none := by
    intro v a w he
    cases hp : operand (v.getLast?.or back) (a :: (w ++ s)) with
    | none => rfl
    | some found =>
      refine absurd (spelledAt_iff.mpr ⟨a :: (w ++ s), found.1, ?_, hp⟩) (h v found.2 ?_)
      · rw [he]
        simp
      · rw [he]
        simp
  rw [valuedFrom, Pattern.renderFrom_of_quiet hnone, List.flatMap_singleton']
  rfl

/-- The first place where the pattern fits is written with a truth value. -/
theorem valuedFrom_first {back : Option Char} {op gap : Text} (front rest : Text) (holds : Bool)
    (hop : ⟨.word, op⟩ ∈ operators) (hn : gap ≠ []) (hg : ∀ c ∈ gap, isBlank c = true)
    (hback : (front.getLast?.or back).any isWordChar = false)
    (hfirst : ∀ u r, u.length < front.length →
      ¬SpelledAt back (front ++ (op ++ (gap ++ ('\'' :: letterText holds ++ '\'' :: rest)))) u r) :
    valuedFrom back (front ++ (op ++ (gap ++ ('\'' :: letterText holds ++ '\'' :: rest)))) =
      front ++ (op ++ (' ' :: truthWord holds ++ valuedFrom (some '\'') rest)) := by
  have hhit : operand (front.getLast?.or back)
      (op ++ (gap ++ ('\'' :: letterText holds)) ++ '\'' :: rest) = some ((op, holds), rest) :=
    operand_eq_some.mpr ⟨hback, hop, gap, hn, hg, by simp⟩
  have hwritten : valuedFrom (front.getLast?.or back)
      (op ++ (gap ++ ('\'' :: letterText holds)) ++ '\'' :: rest) =
        op ++ ' ' :: truthWord holds ++ valuedFrom (some '\'') rest :=
    Pattern.renderFrom_of_hit hhit
  rw [valuedFrom_quiet _ _ _ hfirst]
  simpa using hwritten

theorem valuedFrom_cons {back : Option Char} {c : Char} (hc : c ∉ ['e', 'n']) (s : Text) :
    valuedFrom back (c :: s) = c :: valuedFrom (some c) s :=
  valuedFrom_quiet back [c] s (by
    intro front rest hlen h
    obtain ⟨op, gap, holds, hop, -, -, he, -⟩ := h
    obtain ⟨d, r, rfl, -, hd⟩ := isNameStart_of_operator hop
    have hnil : front = [] := List.length_eq_zero_iff.mp (by simpa using hlen)
    subst hnil
    simp only [List.cons_append, List.nil_append, List.cons.injEq] at he
    exact hc (he.1 ▸ hd))

theorem head?_valuedFrom (back : Option Char) (s : Text) :
    (valuedFrom back s).head? = s.head? := by
  cases s with
  | nil => rfl
  | cons c s =>
    cases hp : operand back (c :: s) with
    | none =>
      have hquiet := valuedFrom_quiet back [c] s fun front rest hlen h => by
        have hnil : front = [] := List.length_eq_zero_iff.mp (by simpa using hlen)
        subst hnil
        obtain ⟨t, hit, rfl, ht⟩ := spelledAt_iff.mp h
        cases ht.symm.trans hp
      rw [List.singleton_append] at hquiet
      rw [hquiet]
      rfl
    | some found =>
      obtain ⟨⟨op, holds⟩, rest⟩ := found
      obtain ⟨hback, hop, gap, hn, hg, he⟩ := operand_eq_some.mp hp
      have hfirst := valuedFrom_first [] rest holds hop hn hg hback (by simp)
      rw [he, ← List.nil_append (op ++ _), hfirst]
      obtain ⟨d, r, rfl, -, -⟩ := isNameStart_of_operator hop
      rfl

theorem sameFront_valuedFrom (back : Option Char) (s : Text) : SameFront s (valuedFrom back s) where
  head := head?_valuedFrom back s
  fraction := by
    intro d r' he _
    cases s with
    | nil => cases he
    | cons c s =>
      have hhead := head?_valuedFrom back (c :: s)
      rw [he] at hhead
      cases hhead
      rw [valuedFrom_cons (by decide), List.cons.injEq] at he
      have hrest := head?_valuedFrom (some '.') s
      rw [he.2] at hrest
      obtain ⟨r, rfl⟩ := List.head?_eq_some_iff.mp hrest.symm
      exact ⟨r, rfl⟩

/-- An operator that starts in a token is the token, unless quotes are around it. -/
theorem operator_in_token {back : Option Char} {t : Token} {op u v s x : Text} (ht : t.Formed)
    (hs : t.Stops s) (htext : t.text = u ++ v) (hv : v ≠ []) (hop : ⟨.word, op⟩ ∈ operators)
    (hx : x.head?.any Token.isNameChar = false) (he : v ++ s = op ++ x)
    (hback : (u.getLast?.or back).any isWordChar = false) :
    (t = ⟨.word, op⟩ ∧ u = [] ∧ s = x) ∨ (t.kind = .literal ∨ t.kind = .quoted) ∧ u ≠ [] := by
  obtain ⟨c, r, hcr, hstart, -⟩ := isNameStart_of_operator hop
  obtain ⟨v', rfl⟩ : ∃ v', v = c :: v' := by
    obtain ⟨d, v', rfl⟩ := List.exists_cons_of_ne_nil hv
    rw [hcr] at he
    exact ⟨v', by rw [(List.cons.inj he).1]⟩
  have hquotes (hq : t.kind = .literal ∨ t.kind = .quoted) : u ≠ [] := by
    rintro rfl
    have hhead := Token.kind_of_head ht (congrArg (· ++ s) htext).symm
      (Token.not_isQuote_of_isNameChar (Token.isNameChar_of_isNameStart hstart))
    exact hq.elim hhead.1 hhead.2
  obtain ⟨kind, text⟩ := t
  cases htext
  rcases ht.of_letter (List.mem_append_right u (by simp)) hstart with hk | hk | hk
  · cases hk
    obtain ⟨-, hname⟩ := ht.word
    cases u using List.reverseRecOn with
    | nil =>
      obtain ⟨hword, hrest⟩ := run_inj hname hs (isNameChar_of_operator hop) hx he
      exact .inl ⟨by rw [← hword], rfl, hrest⟩
    | append_singleton u d _ =>
      have hd : isWordChar d = true := isWordChar_of_isNameChar (hname d (by simp))
      simp [hd] at hback
  · exact .inr ⟨.inl hk, hquotes (.inl hk)⟩
  · exact .inr ⟨.inr hk, hquotes (.inr hk)⟩

theorem spelledAt_in_lexeme {back : Option Char} {l : Lexeme} {s front rest : Text}
    (hg : IsGap l.gap) (hf : l.token.Formed) (hs : l.token.Stops s)
    (h : SpelledAt back (l.text ++ s) front rest) (hlen : front.length < l.text.length) :
    (l.token ∈ operators ∧ front = l.gap ∧ ∃ gap holds, gap ≠ [] ∧ (∀ c ∈ gap, isBlank c = true) ∧
      s = gap ++ ('\'' :: letterText holds ++ '\'' :: rest)) ∨
      (l.token.kind = .literal ∨ l.token.kind = .quoted) ∧
        ∃ u v, u ≠ [] ∧ v ≠ [] ∧ l.token.text = u ++ v ∧ front = l.gap ++ u := by
  obtain ⟨op, gap, holds, hop, hn, hb, he, hback⟩ := h
  rw [Lexeme.text, List.append_assoc] at he
  -- the operator starts behind the gap, for a gap has no letters
  obtain ⟨u, rfl⟩ : ∃ u, front = l.gap ++ u := by
    rcases List.append_eq_append_iff.mp he with ⟨u, hu, -⟩ | ⟨u, hu, he'⟩
    · exact ⟨u, hu⟩
    · cases u with
      | nil => exact ⟨[], by simpa using hu.symm⟩
      | cons d u =>
        obtain ⟨c, r, rfl, hstart, -⟩ := isNameStart_of_operator hop
        have hd : c = d := (List.cons.inj he').1
        have hgap := hg d (by rw [hu]; simp)
        rw [← hd, Token.not_isGapChar_of_isNameChar (Token.isNameChar_of_isNameStart hstart)] at hgap
        cases hgap
  rw [List.append_assoc, List.append_cancel_left_eq] at he
  obtain ⟨v, hv, hvn⟩ : ∃ v, l.token.text = u ++ v ∧ v ≠ [] := by
    rcases List.append_eq_append_iff.mp he with ⟨v, rfl, -⟩ | ⟨v, hv, -⟩
    · simp [Lexeme.text] at hlen
    · refine ⟨v, hv, ?_⟩
      rintro rfl
      simp [Lexeme.text, hv] at hlen
  rw [hv, List.append_assoc, List.append_cancel_left_eq] at he
  have hhead : (gap ++ ('\'' :: letterText holds ++ '\'' :: rest)).head?.any Token.isNameChar =
      false := by
    obtain ⟨d, gap, rfl⟩ := List.exists_cons_of_ne_nil hn
    cases hd : Token.isNameChar d with
    | false => simpa using hd
    | true =>
      have hblank := hb d (by simp)
      rw [not_blank_of_isNameChar hd] at hblank
      cases hblank
  rw [getLast?_append_or] at hback
  rcases operator_in_token hf hs hv hvn hop hhead he hback with ⟨ht, rfl, hx⟩ | ⟨hq, hu⟩
  · exact .inl ⟨ht ▸ hop, by simp, gap, holds, hn, hb, hx⟩
  · exact .inr ⟨hq, u, v, hu, hvn, hv, rfl⟩

theorem letter_inj {g g' rest rest' : Text} {holds holds' : Bool}
    (hg : ∀ c ∈ g, isBlank c = true) (hg' : ∀ c ∈ g', isBlank c = true)
    (h : g ++ ('\'' :: letterText holds ++ '\'' :: rest) =
      g' ++ ('\'' :: letterText holds' ++ '\'' :: rest')) :
    g = g' ∧ holds = holds' ∧ rest = rest' := by
  obtain ⟨hgap, he⟩ := run_inj hg rfl hg' rfl h
  refine ⟨hgap, ?_⟩
  cases holds <;> cases holds' <;> simp [letterText, Value.yesNoLetter] at he ⊢ <;> exact he

theorem meant_cases (before : Option Token) (l : Lexeme) :
    meant before l = l.token ∨ ∃ op holds, before = some op ∧ op ∈ operators ∧ l.gap ≠ [] ∧
      l.token = letter holds ∧ meant before l = truth holds := by
  unfold meant
  split
  · next h =>
    simp only [Bool.and_eq_true, Option.any_eq_true, List.contains_iff_mem, Bool.not_eq_true',
      List.isEmpty_eq_false_iff] at h
    obtain ⟨⟨op, hb, hop⟩, hn⟩ := h
    split
    · next ht => exact .inr ⟨op, true, hb, hop, hn, ht, rfl⟩
    · split
      · next ht => exact .inr ⟨op, false, hb, hop, hn, ht, rfl⟩
      · exact .inl rfl
  · exact .inl rfl

theorem meant_letter {op : Token} {l : Lexeme} {holds : Bool} (hop : op ∈ operators)
    (hn : l.gap ≠ []) (ht : l.token = letter holds) : meant (some op) l = truth holds := by
  have hne : letter false ≠ letter true := by decide
  cases holds <;> simp [meant, hop, hn, ht, hne]

theorem meant_after_letter (holds : Bool) (l : Lexeme) : meant (some (letter holds)) l = l.token := by
  rcases meant_cases (some (letter holds)) l with h | ⟨op, _, hb, hop, -⟩
  · exact h
  · cases hb
    cases holds <;> exact absurd hop (by decide)

/-- The spelled operands that start behind `front` are those among the tokens, and a word cannot
go on in the truth value that each becomes. -/
def Agrees (back : Option Char) (ls : List Lexeme) (tail front : Text) : Prop :=
  ∀ rest, (SpelledAt back (ls.flatMap Lexeme.text ++ tail) front rest ↔
      OperandAt ls tail front rest) ∧
    (OperandAt ls tail front rest → rest.head?.any Token.isNameChar = false)

theorem operandAt_cons {l : Lexeme} {ls : List Lexeme} {tail front rest : Text} :
    OperandAt (l :: ls) tail front rest ↔
      (∃ m after holds, ls = m :: after ∧ l.token ∈ operators ∧ m.gap ≠ [] ∧
        m.token = letter holds ∧ front = l.gap ∧ rest = after.flatMap Lexeme.text ++ tail) ∨
      ∃ front', front = l.text ++ front' ∧ OperandAt ls tail front' rest := by
  constructor
  · rintro ⟨before, o, m, after, holds, he, hop, hn, ht, rfl, rfl⟩
    cases before with
    | nil =>
      simp only [List.nil_append, List.cons.injEq] at he
      obtain ⟨rfl, rfl⟩ := he
      exact .inl ⟨m, after, holds, rfl, hop, hn, ht, by simp, rfl⟩
    | cons b before =>
      simp only [List.cons_append, List.cons.injEq] at he
      obtain ⟨rfl, rfl⟩ := he
      exact .inr ⟨before.flatMap Lexeme.text ++ o.gap, by simp,
        before, o, m, after, holds, rfl, hop, hn, ht, rfl, rfl⟩
  · rintro (⟨m, after, holds, rfl, hop, hn, ht, rfl, rfl⟩ |
      ⟨_, rfl, before, o, m, after, holds, rfl, hop, hn, ht, rfl, rfl⟩)
    · exact ⟨[], l, m, after, holds, rfl, hop, hn, ht, by simp, rfl⟩
    · exact ⟨l :: before, o, m, after, holds, rfl, hop, hn, ht, by simp, rfl⟩

theorem operandAt_append {l : Lexeme} {ls : List Lexeme} {tail front rest : Text}
    (ht : l.token.text ≠ []) :
    OperandAt (l :: ls) tail (l.text ++ front) rest ↔ OperandAt ls tail front rest := by
  rw [operandAt_cons]
  constructor
  · rintro (⟨m, after, holds, -, -, -, -, he, -⟩ | ⟨front', he, h⟩)
    · have hlen := congrArg List.length he
      have hpos := List.length_pos_iff.mpr ht
      simp only [Lexeme.text, List.length_append] at hlen
      omega
    · rwa [List.append_cancel_left he]
  · exact fun h => .inr ⟨front, rfl, h⟩

/-- What is to agree lies in the first token, or behind it. -/
theorem agrees_cons {back : Option Char} {l : Lexeme} {ls : List Lexeme} {tail : Text}
    (ht : l.token.text ≠ []) :
    (∀ front, Agrees back (l :: ls) tail front) ↔
      (∀ front, front.length < l.text.length → Agrees back (l :: ls) tail front) ∧
        ∀ front, Agrees (l.text.getLast?.or back) ls tail front := by
  have hbehind (front : Text) : Agrees back (l :: ls) tail (l.text ++ front) ↔
      Agrees (l.text.getLast?.or back) ls tail front := by
    simp only [Agrees, List.flatMap_cons, List.append_assoc, operandAt_append ht, spelledAt_append]
  constructor
  · exact fun h => ⟨fun front _ => h front, fun front => (hbehind front).mp (h (l.text ++ front))⟩
  · rintro ⟨hin, hout⟩ front
    by_cases hlen : front.length < l.text.length
    · exact hin front hlen
    · by_cases hp : l.text <+: front
      · obtain ⟨front, rfl⟩ := hp
        exact (hbehind front).mpr (hout front)
      · -- nothing starts behind a text that is not the front of this one
        have hspelled (rest : Text) :
            ¬SpelledAt back ((l :: ls).flatMap Lexeme.text ++ tail) front rest := by
          rintro ⟨op, gap, holds, -, -, -, he, -⟩
          rw [List.flatMap_cons, List.append_assoc] at he
          exact hp (List.prefix_of_prefix_length_le ⟨_, rfl⟩ ⟨_, he.symm⟩ (by omega))
        have hoperand (rest : Text) : ¬OperandAt (l :: ls) tail front rest := by
          rw [operandAt_cons]
          rintro (⟨_, _, _, -, -, -, -, rfl, -⟩ | ⟨front', rfl, -⟩)
          · exact ht (by simpa [Lexeme.text] using hlen)
          · exact hp ⟨front', rfl⟩
        exact fun rest => ⟨⟨fun h => absurd h (hspelled rest), fun h => absurd h (hoperand rest)⟩,
          fun h => absurd h (hoperand rest)⟩

theorem truthWord_cons (holds : Bool) :
    ∃ c r, truthWord holds = c :: r ∧ Token.isNameChar c = true := by
  cases holds
  · exact ⟨'f', _, rfl, rfl⟩
  · exact ⟨'t', _, rfl, rfl⟩

theorem truth_formed (holds : Bool) : (truth holds).Formed := by
  cases holds
  · exact ⟨'f', ['a', 'l', 's', 'e'], rfl, rfl, by simp [Token.isNameChar]⟩
  · exact ⟨'t', ['r', 'u', 'e'], rfl, rfl, by simp [Token.isNameChar]⟩

/-- What is cut short by a quote behind blanks is no truth value. -/
theorem truthWord_ne_quote {gap x y : Text} {holds : Bool} (hb : ∀ c ∈ gap, isBlank c = true) :
    ' ' :: (truthWord holds ++ x) ≠ gap ++ '\'' :: y := by
  obtain ⟨c, r, hw, hc⟩ := truthWord_cons holds
  rw [hw]
  intro he
  obtain ⟨-, he⟩ := run_inj (p := isBlank) (l := [' ']) (by simp; decide)
    (by simpa using not_blank_of_isNameChar hc) hb rfl he
  rw [(List.cons.inj he).1] at hc
  cases hc

/-- In quotes, a place where the pattern fits ends the token early or changes it. -/
theorem tokensOf_valuedFrom_quotes {back : Option Char} {l : Lexeme} {s : Text} {ts : List Token}
    (hg : IsGap l.gap) (hf : l.token.Formed) (hs : l.token.Stops s)
    (hq : l.token.kind = .literal ∨ l.token.kind = .quoted)
    (h : ∃ front rest, front.length < l.text.length ∧ SpelledAt back (l.text ++ s) front rest) :
    tokensOf (valuedFrom back (l.text ++ s)) ≠ .ok (l.token :: ts) := by
  -- the first such place is the first that is written anew
  obtain ⟨front, ⟨rest, hlen, hspelled⟩, hmin⟩ :=
    WellFounded.has_min (measure (List.length : Text → Nat)).wf
      {front | ∃ rest, front.length < l.text.length ∧ SpelledAt back (l.text ++ s) front rest} h
  have hfirst : ∀ u r, u.length < front.length → ¬SpelledAt back (l.text ++ s) u r :=
    fun u r hu hsp => hmin u ⟨r, by omega, hsp⟩ hu
  rcases spelledAt_in_lexeme hg hf hs hspelled hlen with ⟨hop, -⟩ | ⟨-, u, v, hu, hv, htext, rfl⟩
  · rw [kind_of_operator hop] at hq
    rcases hq with hq | hq <;> cases hq
  obtain ⟨op, gap, holds, hop, hn, hb, he, hback⟩ := hspelled
  have hv' : ∃ v', v = op ++ (gap ++ '\'' :: v') := by
    have hcut : v ++ s = (op ++ gap) ++ '\'' :: (letterText holds ++ '\'' :: rest) := by
      rw [Lexeme.text, htext] at he
      simpa using he
    rcases append_eq_append_cons hcut with ⟨v', rfl⟩ | ⟨m, hm, -⟩
    · exact ⟨v', by simp⟩
    · -- the closing quote is neither in the operator nor a blank
      obtain ⟨q, hqv, hqq⟩ := hf.closes hq htext hv
      have hmem : q ∈ op ++ gap := by
        rw [hm]
        exact List.mem_append_left m hqv
      rcases List.mem_append.mp hmem with hmem | hmem
      · rw [Token.not_isQuote_of_isNameChar (isNameChar_of_operator hop q hmem)] at hqq
        cases hqq
      · rw [not_isQuote_of (hb q hmem) rfl rfl] at hqq
        cases hqq
  obtain ⟨v', rfl⟩ := hv'
  rw [he] at hfirst ⊢
  rw [valuedFrom_first _ _ _ hop hn hb hback hfirst]
  intro htok
  obtain ⟨g, r, hr, hgap, -⟩ := of_tokensOf_cons htok
  obtain ⟨c, u, rfl⟩ := List.exists_cons_of_ne_nil hu
  have hsolid : Token.isGapChar c = false := by
    obtain ⟨d, w, hd, hdg⟩ := hf.head
    rw [htext] at hd
    rwa [(List.cons.inj hd).1]
  rw [htext, List.append_assoc] at hr
  obtain ⟨-, hr⟩ := run_inj hg (by simpa using hsolid) hgap (by simpa using hsolid) hr
  simp only [List.append_assoc, List.cons_append, List.cons.injEq, true_and,
    List.append_cancel_left_eq] at hr
  exact truthWord_ne_quote hb hr

/-- Behind an operator that the pattern fits, the tokens come out as they are meant if there is
a letter between the operator and what the pattern leaves, and nothing joins the truth value. -/
theorem tokensOf_truth {ls : List Lexeme} {tail gap rest : Text} {op : Token} {holds : Bool}
    (hop : op ∈ operators) (hfit : Fit ls tail) (htail : IsGap tail)
    (hn : gap ≠ []) (hb : ∀ c ∈ gap, isBlank c = true)
    (he : ls.flatMap Lexeme.text ++ tail = gap ++ ('\'' :: letterText holds ++ '\'' :: rest)) :
    tokensOf (' ' :: truthWord holds ++ valuedFrom (some '\'') rest) =
        .ok (meantFrom (some op) ls) ↔
      ∃ after, ls = ⟨gap, letter holds⟩ :: after ∧ rest = after.flatMap Lexeme.text ++ tail ∧
        rest.head?.any Token.isNameChar = false ∧
        tokensOf (valuedFrom (some '\'') rest) = .ok (meantFrom (some (letter holds)) after) := by
  constructor
  · intro htok
    cases ls with
    | nil =>
      have hquote : '\'' ∈ tail := by
        have hin : '\'' ∈ gap ++ ('\'' :: letterText holds ++ '\'' :: rest) := by simp
        rwa [← he] at hin
      cases htail _ hquote
    | cons m after =>
      obtain ⟨g, r, hr, hg, hform, hstop, hrest⟩ := of_tokensOf_cons htok
      have hword : truthWord holds ++ valuedFrom (some '\'') rest =
          (meant (some op) m).text ++ r := by
        obtain ⟨c, w, hc, hcn⟩ := truthWord_cons holds
        obtain ⟨d, x, hd, hdg⟩ := hform.head
        refine (run_inj (p := Token.isGapChar) (l := [' ']) (by simp; decide) ?_ hg ?_ hr).2
        · rw [hc]
          simpa using Token.not_isGapChar_of_isNameChar hcn
        · rw [hd]
          simpa using hdg
      have hblank : ∀ c ∈ m.gap, isBlank c = true := fun c hc => isBlank_of_isGapChar (hfit.1 c hc)
      rw [List.flatMap_cons, Lexeme.text, List.append_assoc, List.append_assoc] at he
      rcases meant_cases (some op) m with hm | ⟨_, holds', -, -, hmn, hm, hmeant⟩
      · obtain ⟨c, w, hc, hcn⟩ := truthWord_cons holds
        obtain ⟨d, x, hd, -⟩ := hform.head
        rw [hm] at hword hd
        rw [hc, hd] at hword
        rw [hd, ← (List.cons.inj hword).1] at he
        obtain ⟨-, he⟩ := run_inj hblank (by simpa using not_blank_of_isNameChar hcn) hb rfl he
        rw [(List.cons.inj he).1] at hcn
        cases hcn
      · rw [hm] at he
        obtain ⟨hgap, rfl, hafter⟩ := letter_inj hblank hb (by simpa [letter] using he)
        rw [hmeant] at hword hstop
        have hv : valuedFrom (some '\'') rest = r := List.append_cancel_left hword
        have hclear : r.head?.any Token.isNameChar = false := hstop
        refine ⟨after, ?_, hafter.symm, ?_, ?_⟩
        · rw [← hgap, ← hm]
        · rw [← hv, head?_valuedFrom] at hclear
          exact hclear
        · rw [hv, hrest, hm]
  · rintro ⟨after, rfl, -, hclear, htok⟩
    have hgap : IsGap [' '] := by simp [IsGap, Token.isGapChar]
    have hstop : (truth holds).Stops (valuedFrom (some '\'') rest) := by
      show (valuedFrom (some '\'') rest).head?.any Token.isNameChar = false
      rwa [head?_valuedFrom]
    have hlexeme := (tokensOf_lexeme_append_iff (l := ⟨[' '], truth holds⟩) hgap
      (truth_formed holds) hstop).mpr ⟨rfl, htok⟩
    rw [meantFrom, meant_letter hop hn rfl]
    exact hlexeme

theorem letter_formed (holds : Bool) : (letter holds).Formed := by
  refine ⟨letterText holds, .of_not_mem ?_, rfl⟩
  cases holds <;> decide

theorem letter_not_operator (holds : Bool) : letter holds ∉ operators := by
  cases holds <;> decide

/-- No operator starts in a letter. -/
theorem not_spelledAt_letter {back : Option Char} {l : Lexeme} {s front rest : Text} {holds : Bool}
    (hg : IsGap l.gap) (ht : l.token = letter holds) (hs : l.token.Stops s)
    (hlen : front.length < l.text.length) : ¬SpelledAt back (l.text ++ s) front rest := by
  intro h
  rcases spelledAt_in_lexeme hg (ht ▸ letter_formed holds) hs h hlen with
    ⟨hop, -⟩ | ⟨-, u, v, -, hv, htext, rfl⟩
  · exact letter_not_operator holds (ht ▸ hop)
  · obtain ⟨op, gap, holds', hop, -, -, he, -⟩ := h
    obtain ⟨c, r, rfl, -, hc⟩ := isNameStart_of_operator hop
    obtain ⟨d, v, rfl⟩ := List.exists_cons_of_ne_nil hv
    rw [Lexeme.text, htext] at he
    simp only [List.append_assoc, List.append_cancel_left_eq, List.cons_append,
      List.cons.injEq] at he
    have hmem : d ∈ (letter holds).text := by
      rw [← ht, htext]
      simp
    rw [he.1] at hmem
    simp only [List.mem_cons, List.not_mem_nil, or_false] at hc
    rcases hc with rfl | rfl <;> cases holds <;> simp [letter, letterText, Value.yesNoLetter] at hmem

theorem not_operandAt_of_token {l : Lexeme} {front : Text} (ht : l.token ∉ operators)
    (hlen : front.length < l.text.length) (ls : List Lexeme) (tail rest : Text) :
    ¬OperandAt (l :: ls) tail front rest := by
  rw [operandAt_cons]
  rintro (⟨_, _, _, -, hop, -⟩ | ⟨front', rfl, -⟩)
  · exact ht hop
  · simp at hlen

/-- A pair of tokens that the pattern takes for an operand and that are one. -/
theorem agrees_operand {back : Option Char} {l : Lexeme} {after : List Lexeme} {tail gap : Text}
    {holds : Bool} (hfit : Fit (l :: ⟨gap, letter holds⟩ :: after) tail) (hn : gap ≠ [])
    (hop : l.token ∈ operators)
    (hspelled : SpelledAt back ((l :: ⟨gap, letter holds⟩ :: after).flatMap Lexeme.text ++ tail)
      l.gap (after.flatMap Lexeme.text ++ tail)) :
    (∀ front, Agrees back (l :: ⟨gap, letter holds⟩ :: after) tail front) ↔
      (after.flatMap Lexeme.text ++ tail).head?.any Token.isNameChar = false ∧
        ∀ front, Agrees (some '\'') after tail front := by
  obtain ⟨hg, hf, hs, hg', hf', hs', -⟩ := hfit
  obtain ⟨c, r, hc, -⟩ := hf.head
  have hlast : (Lexeme.text ⟨gap, letter holds⟩).getLast?.or (l.text.getLast?.or back) =
      some '\'' := by
    cases holds <;> simp [Lexeme.text, letter, List.getLast?_append, List.getLast?_cons]
  have hoperand : OperandAt (l :: ⟨gap, letter holds⟩ :: after) tail l.gap
      (after.flatMap Lexeme.text ++ tail) :=
    operandAt_cons.mpr (.inl ⟨_, after, holds, rfl, hop, hn, rfl, rfl, rfl⟩)
  have hletter (front : Text) (hlen : front.length < (Lexeme.text ⟨gap, letter holds⟩).length) :
      Agrees (l.text.getLast?.or back) (⟨gap, letter holds⟩ :: after) tail front := by
    have hno (rest : Text) : ¬OperandAt (⟨gap, letter holds⟩ :: after) tail front rest :=
      not_operandAt_of_token (letter_not_operator holds) hlen after tail rest
    refine fun rest => ⟨⟨fun h => ?_, fun h => absurd h (hno rest)⟩, fun h => absurd h (hno rest)⟩
    rw [List.flatMap_cons, List.append_assoc] at h
    exact absurd h (not_spelledAt_letter hg' rfl hs' hlen)
  rw [agrees_cons (by simp [hc]), agrees_cons (by simp [letter]), hlast]
  constructor
  · rintro ⟨hin, -, hout⟩
    refine ⟨(hin l.gap ?_ _).2 hoperand, hout⟩
    simp [Lexeme.text, hc]
  · rintro ⟨hclear, hout⟩
    refine ⟨fun front hlen rest => ?_, hletter, hout⟩
    have hspell : SpelledAt back ((l :: ⟨gap, letter holds⟩ :: after).flatMap Lexeme.text ++ tail)
        front rest → front = l.gap ∧ rest = after.flatMap Lexeme.text ++ tail := by
      intro h
      have h' := h
      rw [List.flatMap_cons, List.append_assoc] at h'
      rcases spelledAt_in_lexeme hg hf hs h' hlen with ⟨-, rfl, -⟩ | ⟨hq, -⟩
      · exact ⟨rfl, h.unique hspelled⟩
      · rw [kind_of_operator hop] at hq
        rcases hq with hq | hq <;> cases hq
    have hplace : OperandAt (l :: ⟨gap, letter holds⟩ :: after) tail front rest →
        front = l.gap ∧ rest = after.flatMap Lexeme.text ++ tail := by
      rw [operandAt_cons]
      rintro (⟨_, _, _, he, -, -, -, rfl, rfl⟩ | ⟨_, rfl, -⟩)
      · cases he
        exact ⟨rfl, rfl⟩
      · simp at hlen
    refine ⟨⟨fun h => ?_, fun h => ?_⟩, fun h => ?_⟩
    · obtain ⟨rfl, rfl⟩ := hspell h
      exact hoperand
    · obtain ⟨rfl, rfl⟩ := hplace h
      exact hspelled
    · obtain ⟨-, rfl⟩ := hplace h
      exact hclear

theorem valuedFrom_operator {back : Option Char} {l : Lexeme} {s gap rest : Text} {holds : Bool}
    (hg : IsGap l.gap) (hf : l.token.Formed) (hs : l.token.Stops s) (hop : l.token ∈ operators)
    (hn : gap ≠ []) (hb : ∀ c ∈ gap, isBlank c = true)
    (he : s = gap ++ ('\'' :: letterText holds ++ '\'' :: rest))
    (h : SpelledAt back (l.text ++ (gap ++ ('\'' :: letterText holds ++ '\'' :: rest))) l.gap rest) :
    valuedFrom back (l.text ++ (gap ++ ('\'' :: letterText holds ++ '\'' :: rest))) =
      l.text ++ (' ' :: truthWord holds ++ valuedFrom (some '\'') rest) := by
  have hword : ⟨.word, l.token.text⟩ ∈ operators := by
    rw [← kind_of_operator hop]
    exact hop
  have hassoc (x : Text) : l.gap ++ (l.token.text ++ x) = l.text ++ x := by simp [Lexeme.text]
  obtain ⟨-, -, -, -, -, -, -, hback⟩ := h
  have hfirst := valuedFrom_first l.gap rest holds hword hn hb hback fun u r hu hsp => by
    rw [hassoc, ← he] at hsp
    have hlen : u.length < l.text.length := by
      simp only [Lexeme.text, List.length_append]
      omega
    rcases spelledAt_in_lexeme hg hf hs hsp hlen with ⟨-, rfl, -⟩ | ⟨-, u, v, -, -, -, rfl⟩
    · exact absurd hu (by simp)
    · simp at hu
  rwa [hassoc, hassoc] at hfirst

/-! What a text becomes, by what stands in front of it. -/

/-- White space has no operand. -/
theorem not_spelledAt_gap {back : Option Char} {tail front rest : Text} (htail : IsGap tail) :
    ¬SpelledAt back tail front rest := by
  rintro ⟨op, gap, holds, -, -, -, rfl, -⟩
  cases htail '\'' (by simp)

theorem tokensOf_valuedFrom_gap {back : Option Char} {tail : Text} (htail : IsGap tail) :
    tokensOf (valuedFrom back tail) = .ok [] := by
  have hquiet := valuedFrom_quiet back tail [] fun front rest _ => by
    simpa using not_spelledAt_gap htail
  rw [List.append_nil] at hquiet
  rw [hquiet, valuedFrom_nil, List.append_nil]
  exact tokensOf_gap htail

theorem agrees_gap {back : Option Char} {tail : Text} (htail : IsGap tail) (front : Text) :
    Agrees back [] tail front := by
  have hnone (rest : Text) : ¬OperandAt [] tail front rest := by
    rintro ⟨_, _, _, _, _, he, -⟩
    simp at he
  exact fun rest => ⟨⟨fun h => absurd h (not_spelledAt_gap htail), fun h => absurd h (hnone rest)⟩,
    fun h => absurd h (hnone rest)⟩

section Front

variable {back : Option Char} {l : Lexeme} {ls : List Lexeme} {tail : Text}

/-- An operator, blanks and a letter in front: the letter is one of the tokens, and no name joins
the truth value that it becomes. -/
theorem tokensOf_valuedFrom_operator {gap rest : Text} {holds : Bool}
    (hfit : Fit (l :: ls) tail) (htail : IsGap tail) (hop : l.token ∈ operators)
    (hn : gap ≠ []) (hb : ∀ c ∈ gap, isBlank c = true)
    (hrest : ls.flatMap Lexeme.text ++ tail = gap ++ ('\'' :: letterText holds ++ '\'' :: rest))
    (hspelled : SpelledAt back (l.text ++ (ls.flatMap Lexeme.text ++ tail)) l.gap rest)
    (hbehind : ∀ after, ls = ⟨gap, letter holds⟩ :: after →
      (tokensOf (valuedFrom (some '\'') (after.flatMap Lexeme.text ++ tail)) =
          .ok (meantFrom (some (letter holds)) after) ↔
        ∀ front, Agrees (some '\'') after tail front)) :
    tokensOf (valuedFrom back (l.text ++ (ls.flatMap Lexeme.text ++ tail))) =
        .ok (l.token :: meantFrom (some l.token) ls) ↔
      ∀ front, Agrees back (l :: ls) tail front := by
  obtain ⟨hg, hf, hs, hfit'⟩ := hfit
  have htext : (l :: ls).flatMap Lexeme.text ++ tail =
      l.text ++ (ls.flatMap Lexeme.text ++ tail) := by simp
  have hspace : Breaks (' ' :: truthWord holds ++ valuedFrom (some '\'') rest) :=
    breaks_cons.mpr (by decide)
  rw [hrest, valuedFrom_operator hg hf hs hop hn hb hrest (hrest ▸ hspelled),
    tokensOf_lexeme_append_iff hg hf (.of_breaks hspace),
    tokensOf_truth hop hfit' htail hn hb hrest]
  constructor
  · rintro ⟨-, after, rfl, rfl, hclear, htok⟩
    exact (agrees_operand ⟨hg, hf, hs, hfit'⟩ hn hop (htext ▸ hspelled)).mpr
      ⟨hclear, (hbehind after rfl).mp htok⟩
  · intro h
    rcases operandAt_cons.mp ((h l.gap rest).1.mp (htext ▸ hspelled)) with
      ⟨m, after, holds', rfl, -, hmn, hm, -, rfl⟩ | ⟨_, he, -⟩
    · have hgap : ∀ c ∈ m.gap, isBlank c = true :=
        fun c hc => isBlank_of_isGapChar (hfit'.1 c hc)
      obtain ⟨rfl, rfl, -⟩ := letter_inj hgap hb (by
        simpa [Lexeme.text, hm, letter] using hrest)
      obtain ⟨mgap, _⟩ := m
      cases hm
      obtain ⟨hclear, hafter⟩ :=
        (agrees_operand ⟨hg, hf, hs, hfit'⟩ hn hop (htext ▸ hspelled)).mp h
      exact ⟨rfl, after, rfl, rfl, hclear, (hbehind after rfl).mpr hafter⟩
    · obtain ⟨c, r, hc, -⟩ := hf.head
      simp [Lexeme.text, hc] at he

/-- A place in quotes where the pattern fits is no operand. -/
theorem not_agrees_quotes {front rest : Text}
    (hq : l.token.kind = .literal ∨ l.token.kind = .quoted) (hlen : front.length < l.text.length)
    (hspelled : SpelledAt back (l.text ++ (ls.flatMap Lexeme.text ++ tail)) front rest) :
    ¬∀ front, Agrees back (l :: ls) tail front := by
  have hop : l.token ∉ operators := by
    intro hop
    rw [kind_of_operator hop] at hq
    rcases hq with hq | hq <;> cases hq
  intro h
  rw [← List.append_assoc, ← List.flatMap_cons] at hspelled
  exact not_operandAt_of_token hop hlen ls tail rest ((h front rest).1.mp hspelled)

/-- Where the pattern does not fit in front and no operand stands there, what agrees stands
behind. -/
theorem agrees_quiet (hne : l.token.text ≠ [])
    (hquiet : ∀ front rest, front.length < l.text.length →
      ¬SpelledAt back (l.text ++ (ls.flatMap Lexeme.text ++ tail)) front rest)
    (hfree : ∀ m, ls.head? = some m → meant (some l.token) m = m.token) :
    (∀ front, Agrees back (l :: ls) tail front) ↔
      ∀ front, Agrees (l.text.getLast?.or back) ls tail front := by
  have hno (front rest : Text) (hlen : front.length < l.text.length) :
      ¬OperandAt (l :: ls) tail front rest := by
    rw [operandAt_cons]
    rintro (⟨m, after, holds, rfl, hop, hn, ht, -, -⟩ | ⟨_, rfl, -⟩)
    · have hmeant := hfree m rfl
      rw [meant_letter hop hn ht, ht] at hmeant
      cases hmeant
    · simp at hlen
  rw [agrees_cons hne]
  refine ⟨fun h => h.2, fun h => ⟨fun front hlen rest => ⟨⟨fun hsp => ?_, ?_⟩, ?_⟩, h⟩⟩
  · rw [List.flatMap_cons, List.append_assoc] at hsp
    exact absurd hsp (hquiet front rest hlen)
  · exact fun hop => absurd hop (hno front rest hlen)
  · exact fun hop => absurd hop (hno front rest hlen)

/-- An operand that the pattern misses stays a literal. -/
theorem tokensOf_valuedFrom_missed {m : Lexeme} {after : List Lexeme} {holds : Bool}
    {before : Option Token} (hfit : Fit (m :: after) tail) (ht : m.token = letter holds)
    (hne : meant before m ≠ m.token) :
    tokensOf (valuedFrom back ((m :: after).flatMap Lexeme.text ++ tail)) ≠
      .ok (meantFrom before (m :: after)) := by
  obtain ⟨hg, hf, hs, -⟩ := hfit
  intro h
  rw [List.flatMap_cons, List.append_assoc,
    valuedFrom_quiet _ _ _ fun front rest hlen => not_spelledAt_letter hg ht hs hlen,
    meantFrom, tokensOf_lexeme_append_iff hg hf (hs.of_front (sameFront_valuedFrom _ _))] at h
  exact hne h.1.symm

theorem not_agrees_missed {m : Lexeme} {after : List Lexeme} {holds : Bool}
    (hne : l.token.text ≠ []) (hop : l.token ∈ operators) (hn : m.gap ≠ [])
    (ht : m.token = letter holds)
    (hquiet : ∀ front rest, front.length < l.text.length →
      ¬SpelledAt back (l.text ++ ((m :: after).flatMap Lexeme.text ++ tail)) front rest) :
    ¬∀ front, Agrees back (l :: m :: after) tail front := by
  have hoperand : OperandAt (l :: m :: after) tail l.gap (after.flatMap Lexeme.text ++ tail) :=
    operandAt_cons.mpr (.inl ⟨m, after, holds, rfl, hop, hn, ht, rfl, rfl⟩)
  intro h
  have hspelled := (h l.gap _).1.mpr hoperand
  rw [List.flatMap_cons, List.append_assoc] at hspelled
  refine hquiet l.gap _ ?_ hspelled
  simpa [Lexeme.text, List.length_pos_iff] using hne

end Front

/-- Token by token: the text becomes what its tokens mean as far as the pattern finds the
operands among them and nothing else. -/
theorem tokensOf_valuedFrom_iff {tail : Text} (htail : IsGap tail) {ls : List Lexeme}
    (hfit : Fit ls tail) (back : Option Char) (before : Option Token)
    (hfree : ∀ l, ls.head? = some l → meant before l = l.token) :
    tokensOf (valuedFrom back (ls.flatMap Lexeme.text ++ tail)) = .ok (meantFrom before ls) ↔
      ∀ front, Agrees back ls tail front := by
  induction hlen : ls.length using Nat.strongRecOn generalizing ls back before with
  | ind n ih =>
  subst hlen
  cases ls with
  | nil => exact iff_of_true (tokensOf_valuedFrom_gap htail) (agrees_gap htail)
  | cons l ls =>
    have hfit' := hfit
    obtain ⟨hg, hf, hs, hfits⟩ := hfit'
    have hne : l.token.text ≠ [] := by
      obtain ⟨c, r, hc, -⟩ := hf.head
      simp [hc]
    rw [meantFrom, hfree l rfl, List.flatMap_cons, List.append_assoc]
    by_cases hfound : ∃ front rest, front.length < l.text.length ∧
        SpelledAt back (l.text ++ (ls.flatMap Lexeme.text ++ tail)) front rest
    · obtain ⟨front, rest, hlen, hspelled⟩ := hfound
      rcases spelledAt_in_lexeme hg hf hs hspelled hlen with
        ⟨hop, rfl, gap, holds, hn, hb, hrest⟩ | ⟨hq, -⟩
      · refine tokensOf_valuedFrom_operator hfit htail hop hn hb hrest hspelled ?_
        rintro after rfl
        exact ih after.length (by simp) hfits.2.2.2 (some '\'') (some (letter holds))
          (fun m _ => meant_after_letter holds m) rfl
      · exact iff_of_false
          (tokensOf_valuedFrom_quotes hg hf hs hq ⟨front, rest, hlen, hspelled⟩)
          (not_agrees_quotes hq hlen hspelled)
    · have hquiet : ∀ front rest, front.length < l.text.length →
          ¬SpelledAt back (l.text ++ (ls.flatMap Lexeme.text ++ tail)) front rest :=
        fun front rest hlen h => hfound ⟨front, rest, hlen, h⟩
      rw [valuedFrom_quiet _ _ _ hquiet,
        tokensOf_lexeme_append_iff hg hf (hs.of_front (sameFront_valuedFrom _ _))]
      by_cases hm : ∀ m, ls.head? = some m → meant (some l.token) m = m.token
      · rw [agrees_quiet hne hquiet hm, ih ls.length (by simp) hfits _ _ hm rfl]
        exact and_iff_right rfl
      · simp only [not_forall] at hm
        obtain ⟨m, hhead, hchanged⟩ := hm
        obtain ⟨after, rfl⟩ := List.head?_eq_some_iff.mp hhead
        rcases meant_cases (some l.token) m with hsame | ⟨_, holds, hop', hop, hn, ht, -⟩
        · exact absurd hsame hchanged
        cases hop'
        exact iff_of_false (fun h => tokensOf_valuedFrom_missed hfits ht hchanged h.2)
          (not_agrees_missed hne hop hn ht hquiet)

/-- Operands are whole literals in just the texts where the pattern fits at the operands among
the tokens and nowhere else, and where no name joins the truth value. -/
theorem useTruthValues_tokens_iff {s : Text} {found : Scan} (hs : scan s = .ok found) :
    tokensOf (useTruthValues s) = .ok (meantFrom none found.lexemes) ↔
      ∀ front rest,
        (SpelledAt none s front rest ↔ OperandAt found.lexemes found.tail front rest) ∧
        (OperandAt found.lexemes found.tail front rest →
          rest.head?.any Token.isNameChar = false) := by
  obtain ⟨htext, hfit, htail⟩ := scan_eq_ok_iff.mp hs
  have hiff := tokensOf_valuedFrom_iff htail hfit none none fun l _ => rfl
  rw [useTruthValues_eq, ← htext]
  exact hiff

/-- A longer literal is cut short, and a letter before white space is not. -/
theorem useTruthValues_tokens_iff_doubled :
    (∃ found, scan "eq 'N''D'".toList = .ok found ∧
      tokensOf (useTruthValues "eq 'N''D'".toList) ≠ .ok (meantFrom none found.lexemes)) ∧
    ∃ found, scan "eq 'N' ".toList = .ok found ∧
      ∀ front rest,
        (SpelledAt none "eq 'N' ".toList front rest ↔
          OperandAt found.lexemes found.tail front rest) ∧
        (OperandAt found.lexemes found.tail front rest →
          rest.head?.any Token.isNameChar = false) := by
  constructor
  · have hs : scan "eq 'N''D'".toList = .ok ⟨[⟨[], .word, ['e', 'q']⟩,
        ⟨[' '], .literal, ['\'', 'N', '\'', '\'', 'D', '\'']⟩], []⟩ := by cbv
    refine ⟨_, hs, fun h => ?_⟩
    have hspelled : SpelledAt none "eq 'N''D'".toList [] ['\'', 'D', '\''] :=
      ⟨['e', 'q'], [' '], false, by decide, by decide, by simp; decide, rfl, rfl⟩
    rcases operandAt_cons.mp (((useTruthValues_tokens_iff hs).mp h [] _).1.mp hspelled) with
      ⟨m, after, holds, he, -, -, hm, -⟩ | ⟨front, he, -⟩
    · obtain ⟨rfl, -⟩ := List.cons.inj he
      cases holds <;> exact absurd hm (by decide)
    · cases he
  · have hs : scan "eq 'N' ".toList = .ok ⟨[⟨[], .word, ['e', 'q']⟩,
        ⟨[' '], .literal, ['\'', 'N', '\'']⟩], [' ']⟩ := by cbv
    exact ⟨_, hs, (useTruthValues_tokens_iff hs).mp (by cbv)⟩

end YesNo

end WhereFilter
