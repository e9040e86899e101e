import WhereFilter.Proofs.Language.Syntax

namespace WhereFilter

namespace Language

open Reading (Rank unspaced)

/-- The characters that end names, numbers and literals in a rule. -/
def firmChars : Text :=
  [' ', '\t', '\n', '\x0c', '\r', '=', '<', '>', '!', '(', ')', ',', '@']

/-- Nothing at the front of `s` joins a name, a number or a literal. -/
def Firm (s : Text) : Prop :=
  ∀ c, s.head? = some c → c ∈ firmChars

theorem firm_nil : Firm [] := by
  intro c hc
  cases hc

theorem firm_cons {c : Char} {s : Text} : Firm (c :: s) ↔ c ∈ firmChars := by
  simp [Firm]

theorem firm_of_isGapChar {c : Char} (h : Token.isGapChar c = true) : c ∈ firmChars :=
  List.contains_iff_mem.mp (of_isGapChar firmChars.contains rfl h)

theorem firm_gap {g s : Text} (hg : IsGap g) (hs : Firm s) : Firm (g ++ s) := by
  cases g with
  | nil => exact hs
  | cons c g => exact firm_cons.mpr (firm_of_isGapChar (hg c (by simp)))

theorem firm_of_ne_nil {g s : Text} (hg : IsGap g) (hn : g ≠ []) : Firm (g ++ s) := by
  obtain ⟨c, g, rfl⟩ := List.exists_cons_of_ne_nil hn
  exact firm_cons.mpr (firm_of_isGapChar (hg c (by simp)))

/-- What ends names with its gap or with its first character. -/
theorem firm_lexeme {t s : Text} {l : Lexeme} {ls : List Lexeme} {c : Char} (hg : IsGap l.gap)
    (ht : l.token.text = c :: t) (hc : c ∈ firmChars) :
    Firm ((l :: ls).flatMap Lexeme.text ++ s) := by
  rw [List.flatMap_cons, Lexeme.text, ht, List.append_assoc, List.append_assoc]
  exact firm_gap hg (firm_cons.mpr hc)

theorem Firm.head?_any {p : Char → Bool} (hp : firmChars.all (fun c => !p c) = true) {s : Text}
    (hs : Firm s) : s.head?.any p = false := by
  cases s with
  | nil => rfl
  | cons c s =>
    have hc := List.all_eq_true.mp hp c (firm_cons.mp hs)
    simpa using hc

theorem Firm.head?_ne {a : Char} (ha : a ∉ firmChars) {s : Text} (hs : Firm s) :
    s.head? ≠ some a := by
  intro hh
  exact ha (hs a hh)

theorem stops_word {w s : Text} (hs : Firm s) : (word w).Stops s :=
  hs.head?_any rfl

theorem stops_number {n s : Text} (hs : Firm s) : (⟨.number, n⟩ : Token).Stops s := by
  refine ⟨hs.head?_any rfl, .inr ?_⟩
  rintro d r rfl
  exact absurd (firm_cons.mp hs) (by decide)

theorem stops_literal {c s : Text} (hs : Firm s) : (literal c).Stops s :=
  hs.head?_ne (by decide)

theorem formed_literal {c : Text} (h : '\'' ∉ c) : (literal c).Formed :=
  ⟨c, .of_not_mem h, rfl⟩

theorem formed_opening : opening.Formed := by simp [Token.Formed, opening, Token.signs]

theorem formed_closing : closing.Formed := by simp [Token.Formed, closing, Token.signs]

theorem formed_comma : comma.Formed := by simp [Token.Formed, comma, Token.signs]

theorem formed_dot : dot.Formed := by simp [Token.Formed, dot, Token.signs]

theorem formed_minus : minus.Formed := by simp [Token.Formed, minus, Token.signs]

theorem formed_other {c : Char} (h : Token.isOtherChar c = true) : (other c).Formed :=
  ⟨c, rfl, h⟩

/-- A word in another case is a word. -/
theorem Spells.formed {w s : Text} (h : Spells w s) (hn : w ≠ [])
    (hw : w.all Char.isAlpha = true) : (word s).Formed := by
  have hall : ∀ c ∈ s, c.isAlpha = true := by
    intro c hc
    have hm : c.toLower ∈ Text.lower s := List.mem_map_of_mem hc
    rw [h] at hm
    obtain ⟨a, ha, he⟩ := List.mem_map.mp hm
    rw [← Char.isAlpha_toLower_eq_isAlpha, ← he, Char.isAlpha_toLower_eq_isAlpha]
    exact List.all_eq_true.mp hw a ha
  cases s with
  | nil =>
    have he : w = [] := by simpa [Spells, Text.lower, eq_comm] using h
    exact absurd he hn
  | cons c r =>
    refine ⟨c, r, rfl, ?_, ?_⟩
    · simp [Token.isNameStart, hall c (by simp)]
    · intro a ha
      simp [Token.isNameChar, Char.isAlphanum, hall a (by simp [ha])]

theorem fit_single {g s : Text} {t : Token} (hg : IsGap g) (hf : t.Formed) (hs : t.Stops s) :
    Fit [⟨g, t⟩] s :=
  ⟨hg, hf, hs, trivial⟩

@[simp] theorem unspaced_nil : unspaced [] = [] := rfl

theorem isName_cons {c : Char} {t : Text} (hc : Token.isNameStart c = true)
    (ht : t.all Token.isNameChar = true)
    (hfree : (keywords.all fun w => !(word (c :: t)).isWord w) = true) : IsName (c :: t) :=
  ⟨⟨c, t, rfl, hc, List.all_eq_true.mp ht⟩,
    fun w hw => by simpa using List.all_eq_true.mp hfree w hw⟩

theorem not_quote_of_plain {t : Text} (h : Plain t) : '\'' ∉ t := by
  intro hm
  cases h _ hm

/-- Neither quotes nor at signs stand in names. -/
theorem IsName.not_mem {n : Text} (h : IsName n) {a : Char} (ha : Token.isNameChar a = false) :
    a ∉ n := by
  obtain ⟨c, r, hr, hc, hn⟩ := h.formed
  have hn' : n = c :: r := hr
  intro hm
  rw [hn'] at hm
  have hc' : Token.isNameChar c = true := by
    simp only [Token.isNameStart, Bool.or_eq_true] at hc
    simp only [Token.isNameChar, Char.isAlphanum, Bool.or_eq_true]
    rcases hc with hc | hc
    · exact .inl (.inl hc)
    · exact .inr hc
  rcases List.mem_cons.mp hm with rfl | hm
  · rw [ha] at hc'
    cases hc'
  · rw [hn a hm] at ha
    cases ha

theorem quote_not_mem_placeholder {p : Placeholder} (h : IsName p.name) : '\'' ∉ p.text := by
  have hn : '\'' ∉ p.name := h.not_mem rfl
  cases hh : p.hashed <;> simp [Placeholder.text, hh, hn]

theorem Item.fit {i : Item} (hi : i.Formed) {g s : Text} (hg : IsGap g) (hs : Firm s) :
    Fit (spaced g i.tokens) s := by
  have hat : (other '@').Formed := formed_other rfl
  have hat' {s : Text} : (other '@').Stops s := fun h => absurd h (by decide)
  have hhash' {s : Text} : (other '#').Stops s := fun h => absurd h (by decide)
  match i with
  | .number true digits =>
    exact ⟨hg, formed_minus, trivial, isGap_nil, hi, stops_number hs, trivial⟩
  | .number false digits => exact fit_single hg hi (stops_number hs)
  | .literal contents =>
    exact fit_single hg (formed_literal (not_quote_of_plain hi)) (stops_literal hs)
  | .placeholder true p =>
    exact fit_single hg (formed_literal (quote_not_mem_placeholder hi)) (stops_literal hs)
  | .placeholder false ⟨true, name⟩ =>
    have hname : (word name).Stops ('@' :: s) := stops_word (firm_cons.mpr (by decide))
    exact ⟨hg, hat, hat', isGap_nil, formed_other rfl, hhash', isGap_nil, hi.formed, hname,
      isGap_nil, hat, hat', trivial⟩
  | .placeholder false ⟨false, name⟩ =>
    have hname : (word name).Stops ('@' :: s) := stops_word (firm_cons.mpr (by decide))
    exact ⟨hg, hat, hat', isGap_nil, hi.formed, hname, isGap_nil, hat, hat', trivial⟩
  | .truth holds =>
    have hword : (word (truthWord holds)).Formed := by
      cases holds
      · exact ⟨'f', "alse".toList, rfl, rfl, List.all_eq_true.mp rfl⟩
      · exact ⟨'t', "rue".toList, rfl, rfl, List.all_eq_true.mp rfl⟩
    exact fit_single hg hword (stops_word hs)

theorem Subject.fit_name {x : Subject} (hx : x.Formed) {g s : Text} (hg : IsGap g) (hs : Firm s) :
    Fit (x.name g) s := by
  unfold name
  cases ht : x.table with
  | none => exact fit_single hg hx.column.formed (stops_word hs)
  | some t =>
    have hdot : (word t).Stops ('.' :: (x.column ++ s)) := rfl
    have hcolumn := fit_single isGap_nil hx.column.formed (stops_word hs)
    refine ⟨hg, (hx.table t ht).formed, ?_, isGap_nil, formed_dot, trivial, hcolumn⟩
    simpa [Lexeme.text, dot, word] using hdot

theorem Subject.fit {x : Subject} (hx : x.Formed) {g s : Text} (hg : IsGap g) (hs : Firm s) :
    Fit (x.lexemes g) s := by
  unfold lexemes
  cases hk : x.call with
  | none => exact x.fit_name hx hg hs
  | some k =>
    have hcall := hx.call k hk
    have hword : (word k.spelling).Formed := hcall.spelling.formed (by decide) (by decide)
    refine ⟨hg, hword, stops_word ?_, hcall.beforeOpen, formed_opening, trivial, ?_⟩
    · exact firm_lexeme hcall.beforeOpen rfl (by decide)
    · apply fit_append.mpr
      refine ⟨x.fit_name hx hcall.inside ?_, hcall.beforeComma, formed_comma, trivial,
        hcall.behindComma, formed_literal hcall.contents.1, stops_literal ?_,
        hcall.beforeClose, formed_closing, trivial, trivial⟩
      · exact firm_lexeme hcall.beforeComma rfl (by decide)
      · exact firm_lexeme hcall.beforeClose rfl (by decide)

theorem text_unspaced (ts : List Token) : (unspaced ts).flatMap Lexeme.text = ts.flatMap Token.text := by
  induction ts with
  | nil => rfl
  | cons t ts ih => simp [ih, Lexeme.text]

namespace Item

def text (i : Item) : Text :=
  i.tokens.flatMap Token.text

/-- The characters an item starts with. -/
def isStart (c : Char) : Bool :=
  c.isDigit || ['-', '\'', '@', 't', 'f'].contains c

theorem text_eq_cons {i : Item} (hi : i.Formed) : ∃ c t, i.text = c :: t ∧ isStart c = true := by
  match i with
  | .number true digits => exact ⟨'-', _, rfl, rfl⟩
  | .number false digits =>
    have hdigit : ∃ c t, digits = c :: t ∧ c.isDigit = true := by
      cases hi with
      | whole hn hw =>
        obtain ⟨c, t, rfl⟩ := List.exists_cons_of_ne_nil hn
        exact ⟨c, t, rfl, hw c (by simp)⟩
      | fraction hn hw _ _ =>
        obtain ⟨c, t, rfl⟩ := List.exists_cons_of_ne_nil hn
        exact ⟨c, _, rfl, hw c (by simp)⟩
    obtain ⟨c, t, rfl, hc⟩ := hdigit
    exact ⟨c, t, by simp [text, tokens], by simp [isStart, hc]⟩
  | .literal contents => exact ⟨'\'', _, rfl, rfl⟩
  | .placeholder true p => exact ⟨'\'', _, rfl, rfl⟩
  | .placeholder false ⟨true, name⟩ => exact ⟨'@', _, rfl, rfl⟩
  | .placeholder false ⟨false, name⟩ => exact ⟨'@', _, rfl, rfl⟩
  | .truth true => exact ⟨'t', _, rfl, rfl⟩
  | .truth false => exact ⟨'f', _, rfl, rfl⟩

theorem tokens_ne_nil (i : Item) : i.tokens ≠ [] := by
  match i with
  | .number true _ | .number false _ | .literal _ | .placeholder true _ | .truth _ => simp [tokens]
  | .placeholder false ⟨true, _⟩ | .placeholder false ⟨false, _⟩ => simp [tokens]

end Item

theorem text_spaced (g : Text) {ts : List Token} (h : ts ≠ []) :
    (spaced g ts).flatMap Lexeme.text = g ++ ts.flatMap Token.text := by
  obtain ⟨t, ts, rfl⟩ := List.exists_cons_of_ne_nil h
  simp [spaced, Lexeme.text, text_unspaced]

theorem Relation.formed (r : Relation) : r.token.Formed := by
  cases r
  case eqWord => exact ⟨'e', ['q'], rfl, rfl, List.all_eq_true.mp rfl⟩
  case neqWord => exact ⟨'n', ['e', 'q'], rfl, rfl, List.all_eq_true.mp rfl⟩
  all_goals simp [token, Token.Formed, Token.signs]

theorem Relation.stops (r : Relation) {g s : Text} {i : Item} (hi : i.Formed) (hg : IsGap g)
    (hw : r.isSpelled = true → g ≠ []) : r.token.Stops (g ++ (i.text ++ s)) := by
  cases g with
  | cons c g =>
    exact .of_breaks (breaks_cons.mpr (isBreak_of_isGapChar (hg c (by simp))))
  | nil =>
    obtain ⟨c, t, ht, hc⟩ := Item.text_eq_cons hi
    have hne (a : Char) (ha : Item.isStart a = false) : (i.text ++ s).head? ≠ some a := by
      intro hh
      rw [ht] at hh
      have hca : c = a := by simpa using hh
      rw [← hca, hc] at ha
      cases ha
    cases r
    case eqWord => exact absurd rfl (hw rfl)
    case neqWord => exact absurd rfl (hw rfl)
    case less => exact ⟨hne '>' rfl, hne '=' rfl⟩
    case greater => exact hne '=' rfl
    case equals => exact hne '=' rfl
    all_goals trivial

theorem Relation.firm (r : Relation) {g s : Text} {ls : List Lexeme} (hg : IsGap g)
    (hw : r.isSpelled = true → g ≠ []) :
    Firm ((⟨g, r.token⟩ :: ls : List Lexeme).flatMap Lexeme.text ++ s) := by
  cases r
  case eqWord =>
    rw [List.flatMap_cons, Lexeme.text, List.append_assoc, List.append_assoc]
    exact firm_of_ne_nil hg (hw rfl)
  case neqWord =>
    rw [List.flatMap_cons, Lexeme.text, List.append_assoc, List.append_assoc]
    exact firm_of_ne_nil hg (hw rfl)
  all_goals exact firm_lexeme hg rfl (by decide)

theorem Side.fit {x : Side} (hx : x.Formed) {g s : Text} (hg : IsGap g) (hs : Firm s) :
    Fit (x.lexemes g) s := by
  cases x with
  | subject x => exact x.fit hx hg hs
  | item i => exact i.fit hx hg hs

theorem Spelling.Of.firm {w : Text} {n : Spelling} (h : n.Of w) {s : Text} {ls : List Lexeme} :
    Firm ((n.lexeme :: ls).flatMap Lexeme.text ++ s) := by
  rw [List.flatMap_cons, Lexeme.text, List.append_assoc, List.append_assoc]
  exact firm_of_ne_nil h.gap h.apart

theorem fit_entries {e : Entry} {es : List Entry} (h : ∀ f ∈ e :: es, f.Formed) {s : Text} :
    Fit (entries e es) s := by
  induction es generalizing e with
  | nil =>
    have he := h e (by simp)
    apply fit_append.mpr
    refine ⟨e.item.fit he.item he.gap ?_, fit_single he.behind formed_closing trivial⟩
    exact firm_lexeme he.behind rfl (by decide)
  | cons f es ih =>
    have he := h e (by simp)
    apply fit_append.mpr
    refine ⟨e.item.fit he.item he.gap ?_, he.behind, formed_comma, trivial, ?_⟩
    · exact firm_lexeme he.behind rfl (by decide)
    · exact ih fun f hf => h f (List.mem_cons_of_mem e hf)

theorem Clause.fit {c : Clause} (hc : c.Formed) {g s : Text} (hg : IsGap g) (hs : Firm s) :
    Fit (c.lexemes g) s := by
  cases c with
  | compare left before relation behind right =>
    obtain ⟨hl, hb, hb', hr, hw⟩ := hc
    apply fit_append.mpr
    refine ⟨left.fit hl hg (relation.firm hb fun h => (hw h).1), hb, relation.formed, ?_,
      right.fit hr hb' hs⟩
    rw [text_spaced _ right.tokens_ne_nil, List.append_assoc]
    exact relation.stops hr hb' fun h => (hw h).2
  | member subject negation membership beforeOpen first rest =>
    obtain ⟨hx, hn, hm, ho, he⟩ := hc
    have hlist : Fit (membership.lexeme :: ⟨beforeOpen, opening⟩ :: entries first rest) s := by
      refine ⟨hm.gap, hm.spells.formed (by decide) (by decide), stops_word ?_, ho, formed_opening,
        trivial, fit_entries he⟩
      exact firm_lexeme ho rfl (by decide)
    apply fit_append.mpr
    cases negation with
    | none => exact ⟨subject.fit hx hg hm.firm, hlist⟩
    | some n =>
      have hn := hn n rfl
      exact ⟨subject.fit hx hg hn.firm, hn.gap, hn.spells.formed (by decide) (by decide),
        stops_word hm.firm, hlist⟩

def IsConnective (w : Text) : Prop :=
  w = "AND".toList ∨ w = "OR".toList

/-- What may stand behind a rule: nothing, a parenthesis that closes, or a connective. -/
inductive Ends : List Lexeme → Prop
  | nil : Ends []
  | closing {g : Text} {ls : List Lexeme} (hg : IsGap g) : Ends (⟨g, closing⟩ :: ls)
  | joint {j : Joint} {w : Text} {ls : List Lexeme} (hj : j.Of w) (hw : IsConnective w) :
    Ends (⟨j.before, word j.text⟩ :: ls)

theorem Ends.firm {s : List Lexeme} (h : Ends s) {tail : Text} (ht : IsGap tail) :
    Firm (s.flatMap Lexeme.text ++ tail) := by
  cases h with
  | nil => simpa using firm_gap ht firm_nil
  | closing hg => exact firm_lexeme hg rfl (by decide)
  | joint hj _ =>
    rw [List.flatMap_cons, Lexeme.text, List.append_assoc, List.append_assoc]
    exact firm_of_ne_nil hj.before hj.apart

/-- No token that a rule starts with. -/
def isInner (t : Token) : Bool :=
  t.kind == .dot || t.isWord "NOT".toList || t.isWord "IN".toList

/-- What may stand behind a connective. -/
def Begins (s : List Lexeme) : Prop :=
  ∃ l ls, s = l :: ls ∧ IsGap l.gap ∧ l.gap ≠ [] ∧ isInner l.token = false

theorem IsName.not_inner {n : Text} (h : IsName n) : isInner (word n) = false := by
  have hn := h.free "NOT".toList (by simp [keywords])
  have hi := h.free "IN".toList (by simp [keywords])
  rw [isInner, hn, hi]
  rfl

theorem Spells.isWord {w s v : Text} (h : Spells w s) :
    (word s).isWord v = decide (Text.lower w = Text.lower v) := by
  have hs : Text.lower s = Text.lower w := h
  simp [Token.isWord, word, hs, beq_eq_decide]

theorem Subject.head_name {x : Subject} (hx : x.Formed) (g : Text) :
    ∃ n ls, x.name g = ⟨g, word n⟩ :: ls ∧ IsName n := by
  unfold name
  cases ht : x.table with
  | none => exact ⟨x.column, [], rfl, hx.column⟩
  | some t => exact ⟨t, _, rfl, hx.table t ht⟩

theorem Subject.head {x : Subject} (hx : x.Formed) (g : Text) :
    ∃ t ls, x.lexemes g = ⟨g, t⟩ :: ls ∧ isInner t = false := by
  unfold lexemes
  cases hk : x.call with
  | none =>
    obtain ⟨n, ls, he, hn⟩ := x.head_name hx g
    exact ⟨word n, ls, he, hn.not_inner⟩
  | some k =>
    have hword := (hx.call k hk).spelling
    refine ⟨word k.spelling, _, rfl, ?_⟩
    rw [isInner, hword.isWord, hword.isWord]
    rfl

theorem Item.head {i : Item} (g : Text) :
    ∃ t ls, spaced g i.tokens = ⟨g, t⟩ :: ls ∧ isInner t = false := by
  match i with
  | .number true _ | .number false _ | .literal _ | .placeholder true _ | .truth true
  | .truth false => exact ⟨_, _, rfl, rfl⟩
  | .placeholder false ⟨true, _⟩ | .placeholder false ⟨false, _⟩ => exact ⟨_, _, rfl, rfl⟩

theorem Clause.head {c : Clause} (hc : c.Formed) (g : Text) :
    ∃ t ls, c.lexemes g = ⟨g, t⟩ :: ls ∧ isInner t = false := by
  cases c with
  | compare left before relation behind right =>
    cases left with
    | subject x =>
      obtain ⟨t, ls, he, ht⟩ := x.head hc.1 g
      exact ⟨t, _, by rw [lexemes, Side.lexemes, he]; rfl, ht⟩
    | item i =>
      obtain ⟨t, ls, he, ht⟩ := i.head g
      exact ⟨t, _, by rw [lexemes, Side.lexemes, he]; rfl, ht⟩
  | member subject negation membership beforeOpen first rest =>
    obtain ⟨t, ls, he, ht⟩ := subject.head hc.1 g
    exact ⟨t, _, by rw [lexemes, he]; rfl, ht⟩

theorem Rule.head {r : Rule k} (hr : r.Formed Clause.Formed) (g : Text) :
    ∃ t ls, r.lexemes g = ⟨g, t⟩ :: ls ∧ isInner t = false := by
  induction r generalizing g with
  | clause c => exact c.head hr g
  | group inside r before _ => exact ⟨opening, _, rfl, rfl⟩
  | part r ih => exact ih hr g
  | whole r ih => exact ih hr g
  | both l j r ihl _ =>
    obtain ⟨t, ls, he, ht⟩ := ihl hr.1 g
    exact ⟨t, _, by rw [lexemes, he]; rfl, ht⟩
  | either l j r ihl _ =>
    obtain ⟨t, ls, he, ht⟩ := ihl hr.1 g
    exact ⟨t, _, by rw [lexemes, he]; rfl, ht⟩

/-- A step from lexemes `u` to `u'` in front of `s` that goes from clause to clause and leaves
the parentheses between them alone. -/
structure Carries (R : List Lexeme → List Lexeme → List Lexeme → Prop) (spell : Text → Text)
    (f : Clause → Rule .piece) (P : Clause → Prop) : Prop where
  append {u v s u' v'} : R u (v ++ s) u' → R v s v' → R (u ++ v) s (u' ++ v')
  opening {g s} : IsGap g → R [⟨g, opening⟩] s [⟨g, opening⟩]
  closing {g s} : IsGap g → R [⟨g, closing⟩] s [⟨g, closing⟩]
  joint {j : Joint} {w s} : j.Of w → IsConnective w → Begins s →
    R [⟨j.before, word j.text⟩] s [⟨j.before, word (spell j.text)⟩]
  clause {c g s} : P c → IsGap g → Ends s → R (c.lexemes g) s ((f c).lexemes g)

theorem Carries.rule {R : List Lexeme → List Lexeme → List Lexeme → Prop} {spell : Text → Text}
    {f : Clause → Rule .piece} {P : Clause → Prop} (h : Carries R spell f P)
    (hP : ∀ c, P c → c.Formed) {r : Rule k} (hr : r.Formed P) {g : Text} (hg : IsGap g)
    {s : List Lexeme} (hs : Ends s) :
    R (r.lexemes g) s ((r.rebuild spell f).lexemes g) := by
  have joined {w : Text} (hw : IsConnective w) {j : Joint} (hj : j.Of w)
      {u v s v' u' : List Lexeme} (hu : R u (⟨j.before, word j.text⟩ :: (v ++ s)) u') (hv : R v s v')
      (hb : Begins (v ++ s)) : R (u ++ ⟨j.before, word j.text⟩ :: v) s
        (u' ++ ⟨j.before, word (spell j.text)⟩ :: v') :=
    h.append hu (h.append (h.joint hj hw hb) hv)
  have begins {k : Rank} {r : Rule k} (hr : r.Formed P) {w : Text} {j : Joint} (hj : j.Of w)
      {s : List Lexeme} : Begins (r.lexemes j.behind ++ s) := by
    obtain ⟨t, ls, he, ht⟩ := r.head (hr.mono hP) j.behind
    exact ⟨⟨j.behind, t⟩, ls ++ s, by rw [he]; rfl, hj.behind, hj.apart_behind, ht⟩
  induction r generalizing g s with
  | clause c => exact h.clause hr hg hs
  | group inside r before ih =>
    have hinner := ih hr.2.1 hr.1 (s := ⟨before, Language.closing⟩ :: s) (.closing hr.2.2)
    exact h.append (h.opening hg) (h.append hinner (h.closing hr.2.2))
  | part r ih => exact ih hr hg hs
  | whole r ih => exact ih hr hg hs
  | both l j r ihl ihr =>
    have hw : IsConnective "AND".toList := .inl rfl
    exact joined hw hr.2.1 (ihl hr.1 hg (.joint hr.2.1 hw)) (ihr hr.2.2 hr.2.1.behind hs)
      (begins hr.2.2 hr.2.1)
  | either l j r ihl ihr =>
    have hw : IsConnective "OR".toList := .inr rfl
    exact joined hw hr.2.1 (ihl hr.1 hg (.joint hr.2.1 hw)) (ihr hr.2.2 hr.2.1.behind hs)
      (begins hr.2.2 hr.2.1)

/-- Every token of a rule is read whole. -/
theorem Rule.fit {r : Rule k} (hr : r.Formed Clause.Formed) {g tail : Text} (hg : IsGap g)
    (ht : IsGap tail) : Fit (r.lexemes g) tail := by
  have h : Carries (fun u s _ => Fit u (s.flatMap Lexeme.text ++ tail)) id .clause
      Clause.Formed := by
    refine ⟨?_, ?_, ?_, ?_, ?_⟩
    · intro u v s u' v' hu hv
      apply fit_append.mpr
      exact ⟨by simpa using hu, hv⟩
    · intro g s hg
      exact fit_single hg formed_opening trivial
    · intro g s hg
      exact fit_single hg formed_closing trivial
    · intro j w s hj hw hs
      obtain ⟨l, ls, rfl, hl, hn, -⟩ := hs
      have hword : (word j.text).Formed := by
        rcases hw with rfl | rfl
        · exact hj.spells.formed (by decide) (by decide)
        · exact hj.spells.formed (by decide) (by decide)
      refine fit_single hj.before hword (stops_word ?_)
      rw [List.flatMap_cons, Lexeme.text, List.append_assoc, List.append_assoc]
      exact firm_of_ne_nil hl hn
    · intro c g s hc hg hs
      exact c.fit hc hg (hs.firm ht)
  simpa using h.rule (fun _ hc => hc) hr hg .nil

end Language

end WhereFilter
