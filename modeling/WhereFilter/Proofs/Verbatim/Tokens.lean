import WhereFilter.Proofs.Verbatim.Units

namespace WhereFilter

open Token (isNameChar Paired Formed)

namespace Verbatim

/-- The token may stay where it is, in front of `rest`. -/
def Guarded (tight : Bool) (t : Token) (rest : Text) : Prop :=
  match t.kind with
  | .literal => (∃ v, t.text = quotation v ∧ Calm v) ∧ rest.head?.any (joins tight) = false
  | .quoted => (∃ u, t.text = '"' :: u ++ ['"'] ∧ Quiet u) ∧ rest.head? ≠ some '"'
  | .parenRight => rest.head?.any isQuote = false
  | _ => '@' ∉ t.text

def Safe (tight : Bool) : List Lexeme → Text → Prop
  | [], _ => True
  | l :: ls, rest => Guarded tight l.token (ls.flatMap Lexeme.text ++ rest) ∧ Safe tight ls rest

/-- What is known of a token that is a literal. -/
def Listed (known : Text → Prop) (t : Token) : Prop :=
  t.kind = .literal → known t.text

theorem listed_of_ne {known : Text → Prop} {t : Token} (h : t.kind ≠ .literal) : Listed known t :=
  fun hk => absurd hk h

theorem inert_gap {g : Text} (hg : IsGap g) : Inert g := by
  intro c hc
  refine ⟨of_isGapChar isCode rfl (hg c hc), ?_⟩
  rintro rfl
  cases hg _ hc

/-- Quotes stand in literals and quoted names only, and a parenthesis that closes by itself. -/
theorem plain_of_formed {t : Token} (ht : t.Formed) (hl : t.kind ≠ .literal) (hq : t.kind ≠ .quoted)
    {c : Char} (hc : c ∈ t.text) : isQuote c = false ∧ (t.kind ≠ .parenRight → c ≠ ')') := by
  have hname {c : Char} (hc : isNameChar c = true) : isQuote c = false ∧ c ≠ ')' :=
    ⟨Token.not_isQuote_of_isNameChar hc, by rintro rfl; cases hc⟩
  obtain ⟨kind, text⟩ := t
  cases kind
  case literal => exact absurd rfl hl
  case quoted => exact absurd rfl hq
  case word => exact (hname (ht.word.2 c hc)).imp_right fun h _ => h
  case number =>
    rcases Language.mem_numeral ht hc with hd | rfl
    · exact (hname (Token.isNameChar_of_isDigit hd)).imp_right fun h _ => h
    · exact ⟨rfl, fun _ => by decide⟩
  case other =>
    obtain ⟨a, rfl, ha⟩ := ht
    obtain rfl := List.mem_singleton.mp hc
    refine ⟨not_isQuote_of ha rfl rfl, fun _ => ?_⟩
    rintro rfl
    cases ha
  all_goals
    simp only [Formed, Token.signs, List.mem_cons, Prod.mk.injEq, reduceCtorEq, and_false, and_true,
      false_or, or_false, List.not_mem_nil] at ht
    subst ht
    simp only [List.mem_cons, List.not_mem_nil, or_false] at hc
    rcases hc with rfl | rfl <;> exact ⟨rfl, by simp⟩

theorem paired_inj {quote : Char} {b b' r r' : Text} (hb : Paired quote b) (hb' : Paired quote b')
    (hr : r.head? ≠ some quote) (hr' : r'.head? ≠ some quote)
    (h : b ++ quote :: r = b' ++ quote :: r') : b = b' ∧ r = r' := by
  have hread := Token.body?_append hb hr
  rw [h, Token.body?_append hb' hr'] at hread
  obtain ⟨hbody, hrest⟩ := Prod.mk.inj (Option.some.inj hread)
  exact ⟨(List.append_cancel_right hbody).symm, hrest.symm⟩

section

variable {tight : Bool} {known : Text → Prop} {t : Token} {g rest : Text}

theorem sound_token (hg : IsGap g) (ht : t.Formed) (hguard : Guarded tight t rest)
    (hlisted : Listed known t) (h : Sound tight known rest) :
    Sound tight known (g ++ (t.text ++ rest)) := by
  refine (inert_gap hg).sound ?_
  have hcode (hl : t.kind ≠ .literal) (hq : t.kind ≠ .quoted) (hr : t.kind ≠ .parenRight)
      (hat : '@' ∉ t.text) : Sound tight known (t.text ++ rest) := by
    refine Inert.sound (fun c hc => ?_) h
    obtain ⟨hquote, hclose⟩ := plain_of_formed ht hl hq hc
    refine ⟨?_, hclose hr⟩
    have hne : c ≠ '@' := by
      rintro rfl
      exact hat hc
    simp [isCode, hquote, hne]
  obtain ⟨kind, text⟩ := t
  cases kind
  case literal =>
    obtain ⟨⟨v, rfl, hv⟩, hnext⟩ := hguard
    exact .literal hv (hlisted rfl) h hnext
  case quoted =>
    obtain ⟨⟨u, rfl, hu⟩, hnext⟩ := hguard
    simpa using Sound.quoted hu h hnext
  case parenRight =>
    obtain rfl : text = [')'] := by simpa [Formed, Token.signs] using ht
    exact .code rfl h fun _ => hguard
  all_goals exact hcode (by simp) (by simp) (by simp) hguard

theorem Sound.of_token (h : Sound tight known (g ++ (t.text ++ rest))) (hg : IsGap g)
    (ht : t.Formed) (hs : t.Stops rest) :
    Guarded tight t rest ∧ Listed known t ∧ Sound tight known rest := by
  replace h := h.of_codes hg.not_isQuote
  have hcode (hl : t.kind ≠ .literal) (hq : t.kind ≠ .quoted) :
      '@' ∉ t.text ∧ Sound tight known rest := by
    refine ⟨fun hm => h.at_not_mem (List.mem_append_left _ hm), ?_⟩
    exact h.of_codes fun c hc => (plain_of_formed ht hl hq hc).1
  obtain ⟨kind, text⟩ := t
  cases kind
  case literal =>
    obtain ⟨b, hb, rfl⟩ := ht
    obtain ⟨v, s, he, hv, hknown, hsound, hnext⟩ := h.of_quote
    obtain ⟨rfl, rfl⟩ := paired_inj hb (Value.paired_doubleQuotes v) hs (ne_quote_of_joins hnext)
      (by simpa [quotation] using he)
    exact ⟨⟨⟨v, rfl, hv⟩, hnext⟩, fun _ => hknown, hsound⟩
  case quoted =>
    obtain ⟨b, hb, rfl⟩ := ht
    obtain ⟨u, s, he, hu, hsound, hnext⟩ := h.of_double
    obtain ⟨rfl, rfl⟩ := paired_inj hb hu.paired hs hnext (by simpa using he)
    exact ⟨⟨⟨b, rfl, hu⟩, hs⟩, listed_of_ne (by simp), hsound⟩
  case parenRight =>
    obtain rfl : text = [')'] := by simpa [Formed, Token.signs] using ht
    obtain ⟨hsound, -, hnext⟩ := h.of_code rfl
    exact ⟨hnext rfl, listed_of_ne (by simp), hsound⟩
  all_goals
    obtain ⟨hat, hsound⟩ := hcode (by simp) (by simp)
    exact ⟨hat, listed_of_ne (by simp), hsound⟩

end

section

variable {tight : Bool} {known : Text → Prop} {ls : List Lexeme} {s rest tail : Text}

theorem sound_lexemes (hls : ∀ l ∈ ls, IsGap l.gap ∧ l.token.Formed) (hsafe : Safe tight ls rest)
    (hlisted : ∀ l ∈ ls, Listed known l.token) (h : Sound tight known rest) :
    Sound tight known (ls.flatMap Lexeme.text ++ rest) := by
  induction ls with
  | nil => exact h
  | cons l ls ih =>
    obtain ⟨⟨hg, ht⟩, hls⟩ := List.forall_mem_cons.mp hls
    obtain ⟨hl, hlisted⟩ := List.forall_mem_cons.mp hlisted
    have hsound := sound_token hg ht hsafe.1 hl (ih hls hsafe.2 hlisted)
    simpa [Lexeme.text] using hsound

theorem Sound.of_lexemes (h : Sound tight known (ls.flatMap Lexeme.text ++ rest))
    (hfit : Fit ls rest) :
    Safe tight ls rest ∧ (∀ l ∈ ls, Listed known l.token) ∧ Sound tight known rest := by
  induction ls with
  | nil => exact ⟨trivial, by simp, h⟩
  | cons l ls ih =>
    obtain ⟨hg, ht, hs, hfit⟩ := hfit
    obtain ⟨hguard, hl, hrest⟩ := Sound.of_token (by simpa [Lexeme.text] using h) hg ht hs
    obtain ⟨hsafe, hlisted, htail⟩ := ih hrest hfit
    exact ⟨⟨hguard, hsafe⟩, List.forall_mem_cons.mpr ⟨hl, hlisted⟩, htail⟩

theorem Sound.read {c : Char} {r : Text} (h : Sound tight known (c :: r)) :
    Token.read? c r ≠ none := by
  have htoken {t : Token} {rest : Text} (ht : t.Formed) (hs : t.Stops rest)
      (he : c :: r = t.text ++ rest) : Token.read? c r ≠ none := by
    obtain ⟨a, u, hau, -, hread⟩ := Token.read?_append ht hs
    obtain ⟨rfl, rfl⟩ := List.cons.inj (he.trans hau)
    simp [hread]
  by_cases hsingle : c = '\''
  · subst hsingle
    obtain ⟨v, s, he, -, -, -, hnext⟩ := h.of_quote
    have ht : Formed ⟨.literal, quotation v⟩ := ⟨_, Value.paired_doubleQuotes v, rfl⟩
    exact htoken ht (ne_quote_of_joins hnext) he
  · by_cases hdouble : c = '"'
    · subst hdouble
      obtain ⟨u, s, rfl, hu, -, hnext⟩ := h.of_double
      have ht : Formed ⟨.quoted, '"' :: u ++ ['"']⟩ := ⟨_, hu.paired, rfl⟩
      exact htoken ht hnext (by simp)
    · unfold Token.read?
      rw [if_neg hsingle, if_neg hdouble]
      split
      · simp
      · split
        · simp
        · split <;> simp

/-- A sound text has tokens. -/
theorem Sound.scans (h : Sound tight known s) : ∃ found, scan s = .ok found := by
  induction hn : s.length using Nat.strongRecOn generalizing s with
  | ind n ih =>
  subst hn
  cases hstep : step s with
  | done gap => exact ⟨_, scan_of_done hstep⟩
  | lexeme l rest =>
    obtain ⟨hg, ht, hs⟩ := fit_of_step hstep
    obtain ⟨rfl, -⟩ := step_lexeme hstep
    obtain ⟨-, -, hrest⟩ := Sound.of_token (by simpa [Lexeme.text] using h) hg ht hs
    obtain ⟨found, hfound⟩ := ih rest.length (step_shorter hstep) hrest rfl
    exact ⟨found.cons l, by rw [scan_of_lexeme hstep, hfound]⟩
  | unclosed gap =>
    unfold step at hstep
    split at hstep
    · cases hstep
    · next c r hd =>
      have hsplit := List.takeWhile_append_dropWhile (p := Token.isGapChar) (l := s)
      rw [hd] at hsplit
      rw [← hsplit] at h
      have hread := (h.of_codes (IsGap.not_isQuote holds_of_mem_takeWhile)).read
      split at hstep
      · next hnone => exact absurd hnone hread
      · cases hstep

end

end Verbatim

end WhereFilter
