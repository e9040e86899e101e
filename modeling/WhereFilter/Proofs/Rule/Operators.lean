import WhereFilter.Proofs.Token.Front
import WhereFilter.Proofs.Token.Longest
import WhereFilter.Rule.Operator

namespace WhereFilter

/-- The tokens of a text are those that stand at its places. -/
theorem tokensOf_eq_ok_iff_tokenize {s : Text} {ts : List Token} :
    tokensOf s = .ok ts ↔ ∃ placed, tokenize s = .ok placed ∧ placed.map Placed.token = ts := by
  rw [tokensOf, tokenize]
  cases scan s <;> simp [Except.map, Scan.tokens, place_tokens]

/-- Each token that ends before `s` ends before `s'` too. -/
def Eases (s s' : Text) : Prop :=
  ∀ t : Token, t.Stops s → t.Stops s'

theorem Eases.of_breaks {s s' : Text} (h : Breaks s') : Eases s s' :=
  fun _ _ => .of_breaks h

/-- Behind a dot a number looks at one more character. A number that has its fraction already
looks at that character alone, so it stands in for the one before the dot. -/
theorem Eases.dot {s s' : Text} (h : Eases s s') : Eases ('.' :: s) ('.' :: s') := by
  intro t ht
  obtain ⟨kind, text⟩ := t
  cases kind
  case number =>
    refine ⟨rfl, ht.2.imp_right ?_⟩
    rintro hwhole d r ⟨⟩
    have hstops : Token.Stops ⟨.number, "0.0".toList⟩ s := by
      refine ⟨?_, .inl (by decide)⟩
      cases s with
      | nil => rfl
      | cons c s => simpa using hwhole c s rfl
    simpa using (h _ hstops).1
  all_goals exact ht

theorem Eases.append {s s' : Text} (h : Eases s s') (u : Text) : Eases (u ++ s) (u ++ s') := by
  by_cases hn : u = []
  · simpa [hn] using h
  by_cases hdot : u = ['.']
  · simpa [hdot] using h.dot
  · exact fun t ht => ht.of_front (sameFront_append hn hdot s s')

/-- A word does not end before another, and all other tokens do. -/
theorem Eases.of_words {t t' : Token} (ht : t.Formed) (hk : t.kind = .word) (ht' : t'.Formed)
    (hk' : t'.kind = .word) (s s' : Text) : Eases (t.text ++ s) (t'.text ++ s') := by
  intro v hv
  obtain ⟨kind, text⟩ := t
  obtain ⟨kind', text'⟩ := t'
  simp only at hk hk'
  subst hk hk'
  obtain ⟨c, r, rfl, hc, -⟩ := ht
  obtain ⟨c', r', rfl, hc', -⟩ := ht'
  refine .of_nameStart (fun hword => ?_) hc'
  have hstart := Token.isNameChar_of_isNameStart hc
  simp only [Token.Stops, hword, List.cons_append, List.head?_cons, Option.any_some] at hv
  rw [hstart] at hv
  cases hv

/-- The text of a token tells its kind. -/
theorem Token.Formed.eq_of_text {t t' : Token} (h : t.Formed) (h' : t'.Formed)
    (he : t.text = t'.text) : t = t' := by
  obtain ⟨c, r, hc, -, hr⟩ := read?_append h (.of_breaks breaks_nil)
  obtain ⟨c', r', hc', -, hr'⟩ := read?_append h' (.of_breaks breaks_nil)
  rw [he, hc', List.cons.injEq] at hc
  obtain ⟨rfl, rfl⟩ := hc
  rw [hr] at hr'
  exact (Prod.mk.inj (Option.some.inj hr')).1

/-- The text of lexemes whose tokens are spelled anew. -/
def respelled (spelling : Token → Option Text) (ls : List Lexeme) : Text :=
  ls.flatMap fun l => l.gap ++ (spelling l.token).getD l.token.text

theorem respelled_append (spelling : Token → Option Text) (u v : List Lexeme) :
    respelled spelling (u ++ v) = respelled spelling u ++ respelled spelling v :=
  List.flatMap_append

theorem respelled_cons (spelling : Token → Option Text) (l : Lexeme) (ls : List Lexeme) :
    respelled spelling (l :: ls) =
      l.gap ++ ((spelling l.token).getD l.token.text ++ respelled spelling ls) := by
  simp [respelled]

/-- Tokens without another spelling stay as they are. -/
theorem respelled_of_none {spelling : Token → Option Text} {ls : List Lexeme}
    (h : ∀ l ∈ ls, spelling l.token = none) : respelled spelling ls = ls.flatMap Lexeme.text := by
  induction ls with
  | nil => rfl
  | cons l ls ih =>
    rw [respelled_cons, h l (by simp), ih fun a ha => h a (List.mem_cons_of_mem l ha)]
    simp [Lexeme.text]

section

variable {spelling : Token → Option Text} {s t g : Text} {l : Lexeme}

theorem respell_eq_ok_iff : respell spelling s = .ok t ↔
    ∃ found, scan s = .ok found ∧ t = respelled spelling found.lexemes ++ found.tail := by
  rw [respell]
  cases scan s with
  | error e => simp [Except.map]
  | ok found => simp [Except.map, respelled, eq_comm]

theorem respell_gap_append (hg : IsGap g) (h : respell spelling s = .ok t) :
    respell spelling (g ++ s) = .ok (g ++ t) := by
  obtain ⟨⟨ls, tail⟩, hs, rfl⟩ := respell_eq_ok_iff.mp h
  obtain ⟨rfl, hfit, htail⟩ := scan_eq_ok_iff.mp hs
  cases ls with
  | nil =>
    exact respell_eq_ok_iff.mpr
      ⟨⟨[], g ++ tail⟩, scan_eq_ok_iff.mpr ⟨by simp [Scan.text], trivial, hg.append htail⟩,
        by simp [respelled]⟩
  | cons l ls =>
    exact respell_eq_ok_iff.mpr
      ⟨⟨{ l with gap := g ++ l.gap } :: ls, tail⟩,
        scan_eq_ok_iff.mpr ⟨by simp [Scan.text, Lexeme.text], hfit.with_gap (hg.append hfit.1), htail⟩,
        by simp [respelled]⟩

theorem respell_lexeme_append (hg : IsGap l.gap) (hf : l.token.Formed) (hs : l.token.Stops s)
    (h : respell spelling s = .ok t) :
    respell spelling (l.text ++ s) =
      .ok (l.gap ++ ((spelling l.token).getD l.token.text ++ t)) := by
  obtain ⟨⟨ls, tail⟩, hscan, rfl⟩ := respell_eq_ok_iff.mp h
  obtain ⟨rfl, hfit, htail⟩ := scan_eq_ok_iff.mp hscan
  exact respell_eq_ok_iff.mpr
    ⟨⟨l :: ls, tail⟩, scan_eq_ok_iff.mpr ⟨by simp [Scan.text], ⟨hg, hf, hs, hfit⟩, htail⟩,
      by simp [respelled]⟩

theorem respell_eq_error_iff {e : Unclosed} :
    respell spelling s = .error e ↔ tokenize s = .error e := by
  rw [respell, tokenize]
  cases scan s <;> simp [Except.map]

end

/-- The passes that spell operators and connectives anew. -/
inductive Respelling
  | unequal | equal | connective
  deriving Repr, DecidableEq

namespace Respelling

def spelling : Respelling → Token → Option Text
  | .unequal => unequalSpelling
  | .equal => equalSpelling
  | .connective => connectiveSpelling

/-- The tokens that a pass selects, what it writes for each, and the word that is read there. -/
inductive Selects : Respelling → Token → (written word : Text) → Prop
  | unequal {t : Token} : t.text = "<>".toList ∨ t.text = "!=".toList →
      Selects .unequal t " neq ".toList "neq".toList
  | equal {t : Token} : t.text = "=".toList ∨ t.text = "==".toList →
      Selects .equal t " eq ".toList "eq".toList
  | connective {t : Token} {w : Text} : t.kind = .word → Text.lower t.text = w →
      w = "and".toList ∨ w = "or".toList → Selects .connective t w w

/-- A pass makes `t` of the text of `ls` and `tail`, and `ts` are the tokens of `t`: each token it
selects is written anew where it stands, and all else is kept. -/
inductive Rewrites (p : Respelling) (tail : Text) : List Lexeme → (t : Text) → List Token → Prop
  | nil : Rewrites p tail [] tail []
  | selected {l : Lexeme} {ls : List Lexeme} {t written word : Text} {ts : List Token} :
      Selects p l.token written word → Rewrites p tail ls t ts →
      Rewrites p tail (l :: ls) (l.gap ++ (written ++ t)) (⟨.word, word⟩ :: ts)
  | kept {l : Lexeme} {ls : List Lexeme} {t : Text} {ts : List Token} :
      (∀ written word, ¬Selects p l.token written word) → Rewrites p tail ls t ts →
      Rewrites p tail (l :: ls) (l.text ++ t) (l.token :: ts)

section

variable {p : Respelling} {t : Token} {written word : Text}

theorem Selects.spelling (h : Selects p t written word) (ht : t.Formed) :
    p.spelling t = some written := by
  have hkind {k : Kind} {u : Text} (hu : t.text = u) (hk : Token.Spells k u) : t.kind = k :=
    congrArg Token.kind (ht.eq_of_text hk.formed hu)
  cases h with
  | unequal h =>
    rcases h with h | h
    · simp [Respelling.spelling, unequalSpelling, hkind h .notEquals]
    · simp [Respelling.spelling, unequalSpelling, hkind h .bangEquals]
  | equal h =>
    rcases h with h | h
    · simp [Respelling.spelling, equalSpelling, hkind h .equals]
    · simp [Respelling.spelling, equalSpelling, hkind h .doubleEquals]
  | connective hk hw h =>
    rcases h with rfl | rfl <;>
      simp [Respelling.spelling, connectiveSpelling, Token.isWord, hk, hw] <;> decide

theorem selects_of_spelling (h : p.spelling t = some written) (ht : t.Formed) :
    ∃ word, Selects p t written word := by
  cases p with
  | unequal =>
    simp only [spelling, unequalSpelling] at h
    split at h <;> cases h
    · next hk => exact ⟨_, .unequal (.inl (by simpa [Token.Formed, Token.signs, hk] using ht))⟩
    · next hk => exact ⟨_, .unequal (.inr (by simpa [Token.Formed, Token.signs, hk] using ht))⟩
  | equal =>
    simp only [spelling, equalSpelling] at h
    split at h <;> cases h
    · next hk => exact ⟨_, .equal (.inl (by simpa [Token.Formed, Token.signs, hk] using ht))⟩
    · next hk => exact ⟨_, .equal (.inr (by simpa [Token.Formed, Token.signs, hk] using ht))⟩
  | connective =>
    simp only [spelling, connectiveSpelling, Token.isWord, Bool.and_eq_true, beq_iff_eq] at h
    split at h
    · next hw =>
      cases h
      exact ⟨_, .connective hw.1 hw.2 (.inl rfl)⟩
    · split at h
      · next hw =>
        cases h
        exact ⟨_, .connective hw.1 hw.2 (.inr rfl)⟩
      · cases h

/-- A selected token becomes a word between spaces, or one word becomes another. -/
theorem Selects.written_eq (h : Selects p t written word) :
    written = [' '] ++ (word ++ [' ']) ∨ written = word ∧ t.kind = .word := by
  cases h with
  | unequal | equal => exact .inl rfl
  | connective hk _ _ => exact .inr ⟨rfl, hk⟩

theorem Selects.formed (h : Selects p t written word) : Token.Formed ⟨.word, word⟩ := by
  cases h with
  | unequal => exact ⟨'n', "eq".toList, rfl, rfl, by simp [Token.isNameChar]⟩
  | equal => exact ⟨'e', ['q'], rfl, rfl, by simp [Token.isNameChar]⟩
  | connective _ _ h =>
    rcases h with rfl | rfl
    · exact ⟨'a', "nd".toList, rfl, rfl, by simp [Token.isNameChar]⟩
    · exact ⟨'o', ['r'], rfl, rfl, by simp [Token.isNameChar]⟩

/-- No pass makes anything else of a word that a pass has written. -/
theorem Selects.settled (h : Selects p t written word) (q : Respelling) :
    (q.spelling ⟨.word, word⟩).getD word = word := by
  cases h with
  | unequal | equal => cases q <;> rfl
  | connective _ _ h => rcases h with rfl | rfl <;> cases q <;> rfl

variable {ls : List Lexeme} {tail : Text}

/-- What ends before a text ends before what a pass makes of the text. -/
theorem eases_respelled (hfit : Fit ls tail) :
    Eases (ls.flatMap Lexeme.text ++ tail) (respelled p.spelling ls ++ tail) := by
  induction ls with
  | nil => exact fun _ h => h
  | cons l ls ih =>
    obtain ⟨hg, hf, -, hrest⟩ := hfit
    rw [respelled_cons, List.flatMap_cons, Lexeme.text]
    simp only [List.append_assoc]
    cases hs : p.spelling l.token with
    | none => exact ((ih hrest).append l.token.text).append l.gap
    | some written =>
      obtain ⟨word, hsel⟩ := selects_of_spelling hs hf
      rw [Option.getD_some]
      rcases hsel.written_eq with rfl | ⟨rfl, hk⟩
      · exact .of_breaks (hg.breaks_append (breaks_cons.mpr rfl))
      · have hword := Eases.of_words hf hk hsel.formed rfl
        exact (hword _ _).append l.gap

/-- What is written for a selected token is read as one word, and no pass changes it. -/
theorem Selects.reads (h : Selects p t written word) {g s u : Text} {ts : List Token}
    (hg : IsGap g) (hstops : t.kind = .word → Token.Stops ⟨.word, word⟩ s)
    (hts : tokensOf s = .ok ts) {q : Respelling} (hq : respell q.spelling s = .ok u) :
    tokensOf (g ++ (written ++ s)) = .ok (⟨.word, word⟩ :: ts) ∧
      respell q.spelling (g ++ (written ++ s)) = .ok (g ++ (written ++ u)) := by
  have hform := h.formed
  rcases h.written_eq with rfl | ⟨rfl, hk⟩
  · let l : Lexeme := ⟨g ++ [' '], ⟨.word, word⟩⟩
    have hgap : IsGap l.gap := hg.append isGap_space
    have hbreak : l.token.Stops ([' '] ++ s) := .of_breaks (breaks_cons.mpr rfl)
    have hread (v : Text) : g ++ ([' '] ++ (word ++ [' ']) ++ v) = l.text ++ ([' '] ++ v) := by
      simp [l, Lexeme.text]
    rw [hread, hread]
    refine ⟨?_, ?_⟩
    · exact (tokensOf_lexeme_append_iff hgap hform hbreak).mpr
        ⟨rfl, tokensOf_gap_append isGap_space hts⟩
    · rw [respell_lexeme_append hgap hform hbreak (respell_gap_append isGap_space hq), h.settled q]
      simp [l, Lexeme.text]
  · let l : Lexeme := ⟨g, ⟨.word, written⟩⟩
    have hread (v : Text) : g ++ (written ++ v) = l.text ++ v := by
      simp [l, Lexeme.text]
    rw [hread, hread]
    refine ⟨?_, ?_⟩
    · exact (tokensOf_lexeme_append_iff (l := l) hg hform (hstops hk)).mpr ⟨rfl, hts⟩
    · rw [respell_lexeme_append (l := l) hg hform (hstops hk) hq, h.settled q, ← hread]

/-- What a pass leaves: the tokens with the selected ones spelled anew, and a second pass then
selects among those that are left. -/
theorem respelled_reads (p : Respelling) (hfit : Fit ls tail) (htail : IsGap tail) :
    ∃ ts, tokensOf (respelled p.spelling ls ++ tail) = .ok ts ∧
      Rewrites p tail ls (respelled p.spelling ls ++ tail) ts ∧
      ∀ q : Respelling, respell q.spelling (respelled p.spelling ls ++ tail) =
        .ok (respelled (fun t => (p.spelling t).or (q.spelling t)) ls ++ tail) := by
  induction ls with
  | nil =>
    refine ⟨[], tokensOf_gap htail, .nil, fun q => ?_⟩
    exact respell_eq_ok_iff.mpr ⟨⟨[], tail⟩, scan_of_done (step_gap htail), rfl⟩
  | cons l ls ih =>
    obtain ⟨hg, hf, hstops, hrest⟩ := hfit
    obtain ⟨ts, hts, hrewrites, hagain⟩ := ih hrest
    have hease := eases_respelled (p := p) hrest _ hstops
    cases hs : p.spelling l.token with
    | none =>
      have htext : respelled p.spelling (l :: ls) ++ tail =
          l.text ++ (respelled p.spelling ls ++ tail) := by
        simp [respelled_cons, hs, Lexeme.text]
      rw [htext]
      refine ⟨l.token :: ts, ?_, .kept (fun written word h => ?_) hrewrites, fun q => ?_⟩
      · exact (tokensOf_lexeme_append_iff hg hf hease).mpr ⟨rfl, hts⟩
      · rw [h.spelling hf] at hs
        cases hs
      · rw [respell_lexeme_append hg hf hease (hagain q)]
        simp [respelled_cons, hs]
    | some written =>
      obtain ⟨word, hsel⟩ := selects_of_spelling hs hf
      have htext : respelled p.spelling (l :: ls) ++ tail =
          l.gap ++ (written ++ (respelled p.spelling ls ++ tail)) := by
        simp [respelled_cons, hs]
      have hword (hk : l.token.kind = .word) :
          Token.Stops ⟨.word, word⟩ (respelled p.spelling ls ++ tail) := by
        simpa only [Token.Stops, hk] using hease
      have hreads (q : Respelling) := hsel.reads hg hword hts (hagain q)
      rw [htext]
      refine ⟨_, (hreads p).1, .selected hsel hrewrites, fun q => ?_⟩
      rw [(hreads q).2, respelled_cons]
      simp [hs]

/-- The kinds of the tokens that a pass selects. -/
def kinds : Respelling → List Kind
  | .unequal => [.notEquals, .bangEquals]
  | .equal => [.equals, .doubleEquals]
  | .connective => [.word]

theorem kind_of_spelling (h : p.spelling t = some written) : t.kind ∈ p.kinds := by
  cases p with
  | unequal =>
    simp only [spelling, unequalSpelling] at h
    split at h <;> simp_all [kinds]
  | equal =>
    simp only [spelling, equalSpelling] at h
    split at h <;> simp_all [kinds]
  | connective =>
    by_contra hk
    have hword : t.kind ≠ .word := by simpa [kinds] using hk
    simp [spelling, connectiveSpelling, Token.isWord, hword] at h

/-- No token is selected by two passes. -/
theorem spelling_comm (p q : Respelling) (t : Token) :
    (p.spelling t).or (q.spelling t) = (q.spelling t).or (p.spelling t) := by
  cases hp : p.spelling t with
  | none => simp
  | some u =>
    cases hq : q.spelling t with
    | none => rfl
    | some v =>
      have hkind : t.kind ∈ p.kinds ∧ t.kind ∈ q.kinds := ⟨kind_of_spelling hp, kind_of_spelling hq⟩
      have hsame : p = q := by
        cases p <;> cases q <;> first | rfl | (simp [kinds] at hkind; grind)
      rw [← hp, ← hq, hsame]

/-- Two passes in a row write each token as the one of them does that selects it. -/
theorem respell_respell (p q : Respelling) (s : Text) :
    (respell p.spelling s >>= respell q.spelling) =
      respell (fun t => (p.spelling t).or (q.spelling t)) s := by
  cases hs : scan s with
  | error e => simp [respell, hs, Except.map, bind, Except.bind]
  | ok found =>
    obtain ⟨-, hfit, htail⟩ := scan_eq_ok_iff.mp hs
    obtain ⟨-, -, -, hagain⟩ := respelled_reads p hfit htail
    have hone (spelling : Token → Option Text) :
        respell spelling s = .ok (respelled spelling found.lexemes ++ found.tail) :=
      respell_eq_ok_iff.mpr ⟨found, hs, rfl⟩
    rw [hone, hone]
    exact hagain q

end

/-- A pass fails where the text cannot be read, at the same offset. Of any other text it leaves all
but the tokens it selects, and what it leaves is read as the tokens of the text with a word in place
of each of those. A second run changes nothing, and two passes do the same in either order. -/
theorem respell_tokens (p q : Respelling) (s : Text) :
    (∀ e, respell p.spelling s = .error e ↔ tokenize s = .error e) ∧
    (∀ found, scan s = .ok found → ∃ t placed, respell p.spelling s = .ok t ∧
      tokenize t = .ok placed ∧
      Rewrites p found.tail found.lexemes t (placed.map Placed.token)) ∧
    (respell p.spelling s >>= respell p.spelling) = respell p.spelling s ∧
    (respell p.spelling s >>= respell q.spelling) =
      (respell q.spelling s >>= respell p.spelling) := by
  refine ⟨fun e => respell_eq_error_iff, ?_, ?_, ?_⟩
  · intro found hs
    obtain ⟨-, hfit, htail⟩ := scan_eq_ok_iff.mp hs
    obtain ⟨ts, hts, hrewrites, -⟩ := respelled_reads p hfit htail
    obtain ⟨placed, hplaced, rfl⟩ := tokensOf_eq_ok_iff_tokenize.mp hts
    exact ⟨_, placed, respell_eq_ok_iff.mpr ⟨found, hs, rfl⟩, hplaced, hrewrites⟩
  · rw [respell_respell]
    simp only [Option.or_self]
  · rw [respell_respell, respell_respell]
    simp only [spelling_comm p q]

/-- Signs that touch each other and a literal with a sign in it. -/
theorem respell_tokens_touching :
    ∃ found t placed, scan "A===aNd<='<>'".toList = .ok found ∧
      respell equalSpelling "A===aNd<='<>'".toList = .ok t ∧ tokenize t = .ok placed ∧
      Rewrites .equal found.tail found.lexemes t (placed.map Placed.token) := by
  have hs : scan "A===aNd<='<>'".toList = .ok ⟨[⟨[], .word, ['A']⟩, ⟨[], .doubleEquals, ['=', '=']⟩,
      ⟨[], .equals, ['=']⟩, ⟨[], .word, ['a', 'N', 'd']⟩, ⟨[], .lessEquals, ['<', '=']⟩,
      ⟨[], .literal, ['\'', '<', '>', '\'']⟩], []⟩ := by cbv
  obtain ⟨t, placed, hread⟩ := (respell_tokens .equal .connective _).2.1 _ hs
  exact ⟨_, t, placed, hs, hread⟩

end Respelling

end WhereFilter
