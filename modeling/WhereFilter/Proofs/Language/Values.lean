import WhereFilter.Proofs.Language.Calls
import WhereFilter.Proofs.Language.Meaning
import WhereFilter.Proofs.Number.Shortest
import WhereFilter.Proofs.Rule.Gate

namespace WhereFilter

namespace Language

open Pattern Reading

/-- A placeholder with its value in its place. -/
def Item.ofValue (quoted : Bool) : Value → Item
  | .number x =>
    if quoted then .literal x.text
    else
      match x.text with
      | '-' :: digits => .number true digits
      | digits => .number false digits
  | v => .literal v.inLiteral

def Item.filled (b : Bindings) : Item → Item
  | .placeholder quoted p =>
    match b.lookup? p.name with
    | some v => .ofValue quoted v
    | none => .placeholder quoted p
  | i => i

namespace Clause

/-- The clause with `f` at its items. -/
def mapItems (f : Item → Item) : Clause → Clause
  | .compare (.subject x) before relation behind right =>
    .compare (.subject x) before relation behind (f right)
  | .compare (.item i) before relation behind right =>
    .compare (.item (f i)) before relation behind (f right)
  | .member x negation membership beforeOpen first rest =>
    .member x negation membership beforeOpen { first with item := f first.item }
      (rest.map fun e => { e with item := f e.item })

end Clause

theorem at_not_mem_gap {g : Text} (hg : IsGap g) : '@' ∉ g := by
  intro hm
  cases hg _ hm

theorem fill_append {b : Bindings} (render : Value → Text) {u : Text} (hu : '@' ∉ u) (s : Text) :
    Placeholder.fill b render (u ++ s) = u ++ Placeholder.fill b render s := by
  induction u with
  | nil => rfl
  | cons c u ih =>
    simp only [List.mem_cons, not_or] at hu
    have hrest := ih hu.2
    rw [Placeholder.fill_eq_write] at hrest ⊢
    rw [List.cons_append, Placeholder.segments_cons (Ne.symm hu.1), Placeholder.write, hrest]
    rfl

theorem fill_text {b : Bindings} (render : Value → Text) {p : Placeholder} (hp : IsName p.name)
    {v : Value} (hv : b.lookup? p.name = some v) (s : Text) :
    Placeholder.fill b render (p.text ++ s) = render v ++ Placeholder.fill b render s := by
  have hname : Placeholder.IsName p.name :=
    ⟨hp.ne_nil, fun _ hc => isWordChar_of_isNameChar (hp.isNameChar hc)⟩
  exact Placeholder.fill_text render hname hv s

/-- What lexemes are filled to. -/
def filling (b : Bindings) (tail : Text) (s : List Lexeme) : Text :=
  (Stretches.ofLexemes tail s).fill b

/-- Lexemes that are no literals stand in one stretch with what follows them. -/
theorem filled_append {b : Bindings} {tail : Text} {u : List Lexeme}
    (hu : ∀ l ∈ u, l.is .literal = false) (s : List Lexeme) :
    filling b tail (u ++ s) =
      Placeholder.fill b Value.operand
        (u.flatMap Lexeme.text ++ (Stretches.ofLexemes tail s).lead) ++
      (Stretches.ofLexemes tail s).literals.flatMap fun (contents, after) =>
        '\'' :: Placeholder.fill b Value.inLiteral contents ++
          '\'' :: Placeholder.fill b Value.operand after := by
  have h : Stretches.ofLexemes tail (u ++ s) = { Stretches.ofLexemes tail s with
      lead := u.flatMap Lexeme.text ++ (Stretches.ofLexemes tail s).lead } := by
    induction u with
    | nil => rfl
    | cons l u ih =>
      have hl := hu l (by simp)
      rw [List.cons_append, Stretches.ofLexemes, hl, ih fun a ha => hu a (by simp [ha])]
      simp
  rw [filling, h]
  rfl

theorem filled_plain {b : Bindings} {tail : Text} {u : List Lexeme}
    (hu : ∀ l ∈ u, l.is .literal = false) (hat : '@' ∉ u.flatMap Lexeme.text) (s : List Lexeme) :
    filling b tail (u ++ s) = u.flatMap Lexeme.text ++ filling b tail s := by
  rw [filled_append hu, fill_append _ hat, List.append_assoc]
  rfl

theorem filled_literal {b : Bindings} {tail g : Text} (hg : IsGap g) (c : Text) (s : List Lexeme) :
    filling b tail (⟨g, literal c⟩ :: s) =
      g ++ '\'' :: Placeholder.fill b Value.inLiteral c ++ '\'' :: filling b tail s := by
  have hcontents : (literal c).contents = c := by simp [literal, Token.contents]
  have h : Stretches.ofLexemes tail (⟨g, literal c⟩ :: s) =
      ⟨g, (c, (Stretches.ofLexemes tail s).lead) :: (Stretches.ofLexemes tail s).literals⟩ := by
    rw [Stretches.ofLexemes]
    simp [Lexeme.is, hcontents]
    rfl
  have hgap : Placeholder.fill b Value.operand g = g := by
    have happ := fill_append (b := b) Value.operand (at_not_mem_gap hg) []
    rw [List.append_nil] at happ
    rw [happ]
    exact List.append_nil g
  rw [filling, h, Stretches.fill, hgap, filling, Stretches.fill]
  simp

/-- How lexemes are written where values are put in. -/
def Fills (b : Bindings) (tail : Text) (u s u' : List Lexeme) : Prop :=
  filling b tail (u ++ s) = u'.flatMap Lexeme.text ++ filling b tail s

theorem Fills.append {b : Bindings} {tail : Text} {u v s u' v' : List Lexeme}
    (hu : Fills b tail u (v ++ s) u') (hv : Fills b tail v s v') :
    Fills b tail (u ++ v) s (u' ++ v') := by
  unfold Fills at hu hv ⊢
  rw [List.append_assoc, hu, hv, List.flatMap_append, List.append_assoc]

theorem fills_plain {b : Bindings} (tail : Text) {l : Lexeme} (hg : IsGap l.gap)
    (hl : l.is .literal = false) (hat : '@' ∉ l.token.text) (s : List Lexeme) :
    Fills b tail [l] s [l] := by
  refine filled_plain (by simpa using hl) ?_ s
  simp [Lexeme.text, at_not_mem_gap hg, hat]

theorem text_ofValue (v : Value) : (Item.ofValue false v).text = v.operand := by
  cases v with
  | yesNo holds => simp [Item.ofValue, Item.text, Item.tokens, literal, Value.operand]
  | text t => simp [Item.ofValue, Item.text, Item.tokens, literal, Value.operand]
  | number x =>
    simp only [Item.ofValue, Value.operand, Bool.false_eq_true, if_false]
    split
    · next digits h => simp [Item.text, Item.tokens, minus, h]
    · simp [Item.text, Item.tokens]

section

variable {b : Bindings} {g : Text} (hg : IsGap g) (tail : Text) (s : List Lexeme)

include hg

/-- An item without literals and without `@` stays as it is. -/
theorem Item.fills_plain {i : Item} (hl : ∀ t ∈ i.tokens, t.kind ≠ .literal) (hat : '@' ∉ i.text) :
    Fills b tail (spaced g i.tokens) s (spaced g i.tokens) := by
  apply filled_plain
  · intro l hm
    simpa [Lexeme.is] using hl l.token (mem_spaced hm)
  · rw [text_spaced g i.tokens_ne_nil]
    intro hm
    rcases List.mem_append.mp hm with hm | hm
    · exact at_not_mem_gap hg hm
    · exact hat hm

theorem fills_literal {c v : Text} (h : Placeholder.fill b Value.inLiteral c = v) :
    Fills b tail (spaced g [Language.literal c]) s (spaced g [Language.literal v]) := by
  change filling b tail (⟨g, Language.literal c⟩ :: s) = _
  rw [filled_literal hg, h]
  simp [spaced, Lexeme.text, Language.literal]

/-- A placeholder of its own turns into the operand that its value is. -/
theorem Item.fills_placeholder {p : Placeholder} {v : Value} (hp : (Item.placeholder false p).Formed)
    (hv : b.lookup? p.name = some v) :
    Fills b tail (spaced g (Item.placeholder false p).tokens) s
      (spaced g (Item.ofValue false v).tokens) := by
  have htext : (Item.placeholder false p).text = p.text := by
    obtain ⟨hashed, name⟩ := p
    cases hashed <;> simp [text, tokens, Placeholder.text, other, word]
  have hnone : ∀ l ∈ spaced g (Item.placeholder false p).tokens, l.is .literal = false := by
    intro l hm
    obtain ⟨hashed, name⟩ := p
    cases hashed <;>
      simp only [spaced, tokens, unspaced_cons, unspaced_nil, List.mem_cons, List.not_mem_nil,
        or_false] at hm <;>
      rcases hm with rfl | rfl | rfl | rfl <;> rfl
  rw [Fills, filled_append hnone, text_spaced g (tokens_ne_nil _),
    text_spaced g (tokens_ne_nil _)]
  change Placeholder.fill b Value.operand (g ++ (Item.placeholder false p).text ++ _) ++ _ =
    g ++ (ofValue false v).text ++ _
  rw [htext, text_ofValue, List.append_assoc, fill_append _ (at_not_mem_gap hg),
    fill_text _ hp hv]
  simp [filling, Stretches.fill]

end

theorem Item.fills {b : Bindings} {i : Item} (hi : i.Formed) (hb : i.Bound b) {g : Text}
    (hg : IsGap g) (tail : Text) (s : List Lexeme) :
    Fills b tail (spaced g i.tokens) s (spaced g (i.filled b).tokens) := by
  have numeral {n : Text} (hn : Token.Numeral n) : '@' ∉ n :=
    not_mem_numeral hn rfl (by decide)
  cases i with
  | number negative digits =>
    cases negative with
    | true =>
      exact fills_plain hg tail s (i := .number true digits) (by simp [tokens, minus])
        (by simpa [text, tokens, minus] using numeral hi)
    | false =>
      exact fills_plain hg tail s (i := .number false digits) (by simp [tokens])
        (by simpa [text, tokens] using numeral hi)
  | literal contents =>
    have hat : '@' ∉ contents := by
      intro hm
      cases hi _ hm
    have happ := fill_append (b := b) Value.inLiteral hat []
    rw [List.append_nil] at happ
    exact fills_literal hg tail s (happ.trans (List.append_nil contents))
  | placeholder inQuotes p =>
    obtain ⟨v, hv, -⟩ := hb
    cases inQuotes with
    | true =>
      have hfill := fill_text Value.inLiteral hi hv []
      rw [List.append_nil] at hfill
      have hvalue : (Item.filled b (.placeholder true p)).tokens =
          [Language.literal v.inLiteral] := by
        simp only [filled, hv]
        cases v <;> rfl
      rw [hvalue]
      exact fills_literal hg tail s (hfill.trans (List.append_nil _))
    | false =>
      have hvalue : Item.filled b (.placeholder false p) = .ofValue false v := by
        simp only [filled, hv]
      rw [hvalue]
      exact fills_placeholder hg tail s hi hv
  | truth holds =>
    cases holds with
    | true =>
      exact fills_plain hg tail s (i := .truth true) (by simp [tokens, word])
        (by simp [text, tokens, word, truthWord])
    | false =>
      exact fills_plain hg tail s (i := .truth false) (by simp [tokens, word])
        (by simp [text, tokens, word, truthWord])

/-- Neither a table name nor a call stands around a column. -/
def Clause.Bare (c : Clause) : Prop :=
  ∀ x, c.subject? = some x → x.table = none ∧ x.call = none

theorem Clause.Untabled.bare {c : Clause} (hc : c.Untabled) :
    (c.mapSubject Subject.uncalled).Bare := by
  intro x hx
  match c, hc with
  | .compare (.subject y) _ _ _ _, hc => cases hx; exact ⟨hc y rfl, rfl⟩
  | .member y _ _ _ _ _, hc => cases hx; exact ⟨hc y rfl, rfl⟩

theorem Subject.lexemes_of_bare {x : Subject} (ht : x.table = none) (hc : x.call = none)
    (g : Text) : x.lexemes g = [⟨g, word x.column⟩] := by
  simp [lexemes, name, ht, hc]

theorem at_not_mem_relation (r : Relation) : '@' ∉ r.token.text := by
  cases r <;> decide

theorem Spells.at_not_mem {w s : Text} (h : Spells w s) (hn : w ≠ [])
    (hw : w.all Char.isAlpha = true) : '@' ∉ s :=
  at_not_mem_word (t := word s) (h.formed hn hw) rfl

theorem fills_entries {b : Bindings} {e : Entry} {es : List Entry}
    (h : ∀ f ∈ e :: es, f.Formed) (hb : ∀ f ∈ e :: es, f.item.Bound b) (tail : Text)
    (s : List Lexeme) :
    Fills b tail (entries e es) s
      (entries { e with item := e.item.filled b }
        (es.map fun f => { f with item := f.item.filled b })) := by
  induction es generalizing e with
  | nil =>
    have he := h e (by simp)
    have hitem := e.item.fills he.item (hb e (by simp)) he.gap tail
    exact (hitem _).append (fills_plain tail he.behind rfl (by simp [closing]) s)
  | cons f es ih =>
    have he := h e (by simp)
    have hitem := e.item.fills he.item (hb e (by simp)) he.gap tail
    have hcomma := fills_plain (b := b) tail (l := ⟨e.behind, comma⟩) he.behind rfl
      (by simp [comma])
    have hrest := ih (e := f) (fun a ha => h a (List.mem_cons_of_mem e ha))
      fun a ha => hb a (List.mem_cons_of_mem e ha)
    exact (hitem _).append ((hcomma _).append hrest)

theorem Clause.fills {b : Bindings} {c : Clause} (hc : c.Formed) (hbare : c.Bare)
    (hb : c.ForItems (Item.Bound b)) {g : Text} (hg : IsGap g) (tail : Text) (s : List Lexeme) :
    Fills b tail (c.lexemes g) s ((c.mapItems (Item.filled b)).lexemes g) := by
  have subject {x : Subject} (hx : x.Formed) (ht : x.table = none ∧ x.call = none)
      (s : List Lexeme) : Fills b tail (x.lexemes g) s (x.lexemes g) := by
    rw [x.lexemes_of_bare ht.1 ht.2]
    exact fills_plain tail hg rfl (hx.column.not_mem rfl) s
  match c with
  | .compare left before relation behind right =>
    obtain ⟨hl, hbefore, hbehind, hr, -⟩ := hc
    have hsign := fills_plain (b := b) tail (l := ⟨before, relation.token⟩) hbefore
      (by cases relation <;> rfl) (at_not_mem_relation relation)
    cases left with
    | subject x =>
      have hright := right.fills hr hb hbehind tail s
      exact (subject hl (hbare x rfl) _).append ((hsign _).append hright)
    | item i =>
      have hright := right.fills hr hb.2 hbehind tail s
      exact (i.fills hl hb.1 hg tail _).append ((hsign _).append hright)
  | .member x negation membership beforeOpen first rest =>
    obtain ⟨hx, hn, hm, ho, he⟩ := hc
    have spelled {w : Text} {n : Spelling} (hn : n.Of w) (hne : w ≠ [])
        (hw : w.all Char.isAlpha = true) (s : List Lexeme) : Fills b tail [n.lexeme] s [n.lexeme] :=
      fills_plain tail hn.gap rfl (hn.spells.at_not_mem hne hw) s
    have hopen := fills_plain (b := b) tail (l := ⟨beforeOpen, opening⟩) ho rfl
      (by simp [opening])
    have hlist := (spelled hm (by decide) (by decide) _).append
      ((hopen _).append (fills_entries he hb tail s))
    cases negation with
    | none => exact (subject hx (hbare x rfl) _).append hlist
    | some n =>
      have hn := spelled (hn n rfl) (by decide) (by decide)
      exact (subject hx (hbare x rfl) _).append ((hn _).append hlist)

theorem carries_fills (b : Bindings) (tail : Text) :
    Carries (Fills b tail) id (fun c => .clause (c.mapItems (Item.filled b)))
      (fun c => c.Formed ∧ c.Bare ∧ c.ForItems (Item.Bound b)) := by
  refine ⟨Fills.append, ?_, ?_, ?_, ?_⟩
  · intro g s hg
    exact fills_plain tail hg rfl (by simp [opening]) s
  · intro g s hg
    exact fills_plain tail hg rfl (by simp [closing]) s
  · intro j w s hj hw _
    have hat : '@' ∉ j.text := by
      rcases hw with rfl | rfl
      · exact hj.spells.at_not_mem (by decide) (by decide)
      · exact hj.spells.at_not_mem (by decide) (by decide)
    exact fills_plain tail hj.before rfl hat s
  · intro c g s hc hg _
    exact c.fills hc.1 hc.2.1 hc.2.2 hg tail s

/-- The third pass puts the values of the variables of a rule in their places. -/
theorem fillPlaceholders_text {b : Bindings} {r : Rule k}
    (hr : r.Formed fun c => c.Formed ∧ c.Bare ∧ c.ForItems (Item.Bound b)) {lead tail : Text}
    (hlead : IsGap lead) (htail : IsGap tail) :
    fillPlaceholders b (r.text lead tail) =
      .ok ((r.rebuild id fun c => .clause (c.mapItems (Item.filled b))).text lead tail) := by
  have hs : scan (r.text lead tail) = .ok ⟨r.lexemes lead, tail⟩ :=
    scan_eq_ok_iff.mpr ⟨rfl, r.fit (hr.mono fun _ h => h.1) hlead htail, htail⟩
  have hfill := (carries_fills b tail).rule (fun _ h => h.1) hr hlead .nil
  have hend : filling b tail [] = tail := by
    have happ := fill_append (b := b) Value.operand (at_not_mem_gap htail) []
    rw [List.append_nil] at happ
    simp only [filling, Stretches.ofLexemes, Stretches.fill, List.flatMap_nil, List.append_nil]
    rw [happ]
    exact List.append_nil tail
  rw [Fills, List.append_nil, hend] at hfill
  rw [fillPlaceholders, hs]
  simp only [Except.map]
  exact congrArg _ hfill

theorem doubleQuotes_of_plain {t : Text} (h : Plain t) : Value.doubleQuotes t = t := by
  induction t with
  | nil => rfl
  | cons c t ih =>
    have hc : c ≠ '\'' := by
      rintro rfl
      cases h '\'' (by simp)
    have hrest := ih fun a ha => h a (List.mem_cons_of_mem c ha)
    rw [Value.doubleQuotes] at hrest ⊢
    rw [List.flatMap_cons, if_neg hc, hrest]
    rfl

theorem isPlainChar_of_digit {c : Char} (h : c.isDigit = true) : isPlainChar c = true := by
  have hblank := not_blank_of_isNameChar (Token.isNameChar_of_isDigit h)
  have hne (a : Char) (ha : a.isDigit = false) : c ≠ a := by
    rintro rfl
    rw [h] at ha
    cases ha
  simp [isPlainChar, hblank, hne '\'' rfl, hne '@' rfl, hne '(' rfl, hne ')' rfl]

theorem plain_numeral {n : Text} (h : Token.Numeral n) : Plain n := by
  intro c hc
  rcases mem_numeral h hc with hd | rfl
  · exact isPlainChar_of_digit hd
  · rfl

theorem numeral_ne_minus {n : Text} (h : Token.Numeral n) (t : Text) : n ≠ '-' :: t := by
  rintro rfl
  rcases mem_numeral h List.mem_cons_self with hd | hd
  · cases hd
  · cases hd

theorem Item.formed_ofValue {v : Value} (h : Allowed v) (quoted : Bool) :
    (Item.ofValue quoted v).Formed := by
  match v with
  | .yesNo true | .yesNo false =>
    intro c hc
    rw [List.mem_singleton.mp hc]
    rfl
  | .text t =>
    change Plain (Value.doubleQuotes t)
    rw [doubleQuotes_of_plain h]
    exact h
  | .number x =>
    obtain ⟨negative, m, rfl⟩ := h
    obtain ⟨n, hn, htext⟩ := Binary64.text_numeral negative m
    cases quoted with
    | true =>
      change Plain (Binary64.finite negative m).text
      rw [htext]
      cases negative with
      | true =>
        intro c hc
        rcases List.mem_cons.mp hc with rfl | hc
        · rfl
        · exact plain_numeral hn c hc
      | false => exact plain_numeral hn
    | false =>
      simp only [ofValue, Bool.false_eq_true, if_false, htext]
      cases negative with
      | true => exact hn
      | false =>
        simp only [Bool.false_eq_true, if_false]
        split
        · exact absurd rfl (numeral_ne_minus hn _)
        · exact hn

theorem Item.value_ofValue {v : Value} (h : Allowed v) (quoted : Bool) (b : Bindings) :
    (Item.ofValue quoted v).value b = valueOperand quoted v := by
  match v with
  | .yesNo holds => rfl
  | .text t =>
    change Operand.text (Value.doubleQuotes t) = .text t
    rw [doubleQuotes_of_plain h]
  | .number x =>
    cases quoted with
    | true => rfl
    | false =>
      simp only [ofValue, valueOperand, Bool.false_eq_true, if_false]
      split
      · next digits hd => simp [value, signed, hd]
      · simp [value, signed]

def Operand.spelling : Operand → Text
  | .number t | .text t => t

/-- The operand of a number, in quotes or without, reads back as the number. -/
theorem read?_valueOperand (quoted : Bool) (x : Binary64) :
    Binary64.read? (valueOperand quoted (.number x)).spelling = some x := by
  cases quoted <;> exact x.read?_text

/-- No variable is left. -/
def Item.Valued : Item → Prop
  | .placeholder _ _ => False
  | _ => True

theorem Item.valued_ofValue (quoted : Bool) (v : Value) : (Item.ofValue quoted v).Valued := by
  match quoted, v with
  | _, .yesNo _ | _, .text _ | true, .number _ => trivial
  | false, .number x =>
    simp only [ofValue, Bool.false_eq_true, if_false]
    split <;> trivial

theorem Item.filled_spec {b : Bindings} {i : Item} (hi : i.Formed) (hb : i.Bound b) :
    (i.filled b).Formed ∧ (i.filled b).Valued ∧ (i.filled b).value b = i.value b := by
  match i with
  | .number _ _ | .literal _ | .truth _ => exact ⟨hi, trivial, rfl⟩
  | .placeholder quoted p =>
    obtain ⟨v, hv, ha⟩ := hb
    simp only [filled, value, hv]
    exact ⟨formed_ofValue ha quoted, valued_ofValue quoted v, value_ofValue ha quoted b⟩

theorem Clause.Formed.forItems {c : Clause} (hc : c.Formed) : c.ForItems Item.Formed := by
  match c with
  | .compare (.subject _) _ _ _ _ => exact hc.2.2.2.1
  | .compare (.item _) _ _ _ _ => exact ⟨hc.1, hc.2.2.2.1⟩
  | .member _ _ _ _ _ _ => exact fun e he => (hc.2.2.2.2 e he).item

theorem Clause.ForItems.and {P Q : Item → Prop} {c : Clause} (hp : c.ForItems P)
    (hq : c.ForItems Q) : c.ForItems fun i => P i ∧ Q i := by
  match c with
  | .compare (.subject _) _ _ _ _ => exact ⟨hp, hq⟩
  | .compare (.item _) _ _ _ _ => exact ⟨⟨hp.1, hq.1⟩, hp.2, hq.2⟩
  | .member _ _ _ _ _ _ => exact fun e he => ⟨hp e he, hq e he⟩

theorem Clause.forItems_mapItems {P Q : Item → Prop} {f : Item → Item} (h : ∀ i, P i → Q (f i))
    {c : Clause} (hc : c.ForItems P) : (c.mapItems f).ForItems Q := by
  match c with
  | .compare (.subject _) _ _ _ _ => exact h _ hc
  | .compare (.item _) _ _ _ _ => exact ⟨h _ hc.1, h _ hc.2⟩
  | .member _ _ _ _ _ _ =>
    intro e he
    rcases List.mem_cons.mp he with rfl | he
    · exact h _ (hc _ List.mem_cons_self)
    · obtain ⟨e', he', rfl⟩ := List.mem_map.mp he
      exact h _ (hc e' (List.mem_cons_of_mem _ he'))

theorem Clause.Formed.mapItems {f : Item → Item} {c : Clause} (hc : c.Formed)
    (h : c.ForItems fun i => (f i).Formed) : (c.mapItems f).Formed := by
  match c with
  | .compare (.subject _) _ _ _ _ => exact ⟨hc.1, hc.2.1, hc.2.2.1, h, hc.2.2.2.2⟩
  | .compare (.item _) _ _ _ _ => exact ⟨h.1, hc.2.1, hc.2.2.1, h.2, hc.2.2.2.2⟩
  | .member _ _ _ _ _ _ =>
    refine ⟨hc.1, hc.2.1, hc.2.2.1, hc.2.2.2.1, ?_⟩
    have hentry {e : Entry} (he : e.Formed) (hf : (f e.item).Formed) :
        ({ e with item := f e.item } : Entry).Formed := ⟨he.gap, hf, he.behind⟩
    intro e he
    rcases List.mem_cons.mp he with rfl | he
    · exact hentry (hc.2.2.2.2 _ List.mem_cons_self) (h _ List.mem_cons_self)
    · obtain ⟨e', he', rfl⟩ := List.mem_map.mp he
      exact hentry (hc.2.2.2.2 e' (List.mem_cons_of_mem _ he')) (h e' (List.mem_cons_of_mem _ he'))

/-- A list is true of a row by the values of its items. -/
theorem Clause.truth_member {b : Bindings} {row : Row} {x : Subject} {negation : Option Spelling}
    {membership : Spelling} {beforeOpen : Text} {first : Entry} {rest : List Entry} :
    (Clause.member x negation membership beforeOpen first rest).truth b row =
      match negation with
      | none => ((first :: rest).map fun e => e.item.value b).any (row x.column · == .eq)
      | some _ => ((first :: rest).map fun e => e.item.value b).all (row x.column · != .eq) := by
  cases negation <;> simp only [truth, List.any_map, List.all_map, Function.comp_def]

theorem Clause.truth_mapItems {b : Bindings} {f : Item → Item} {c : Clause}
    (h : c.ForItems fun i => (f i).value b = i.value b) (row : Row) :
    (c.mapItems f).truth b row = c.truth b row := by
  match c with
  | .compare (.subject _) _ _ _ _ =>
    simp only [ForItems] at h
    simp only [mapItems, truth, h]
  | .compare (.item _) _ _ _ _ =>
    obtain ⟨hl, hr⟩ := h
    simp only [mapItems, truth, hl, hr]
  | .member x negation membership beforeOpen first rest =>
    have hvalues : (({ first with item := f first.item } : Entry) ::
        rest.map fun e => { e with item := f e.item }).map (fun e => e.item.value b) =
        (first :: rest).map fun e => e.item.value b := by
      rw [List.map_cons, List.map_cons, List.map_map, h first List.mem_cons_self]
      congr 1
      apply List.map_congr_left
      intro e he
      exact h e (List.mem_cons_of_mem _ he)
    rw [mapItems, truth_member, truth_member, hvalues]

end Language

end WhereFilter
