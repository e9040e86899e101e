import WhereFilter.Proofs.Language.Flags
import WhereFilter.Rule.Membership

namespace WhereFilter

namespace Language

open Pattern Reading

/-- No blank stands in an item. -/
theorem Item.no_blank {i : Item} (hi : i.Formed) : ∀ c ∈ i.text, isBlank c = false := by
  have numeral {n : Text} (hn : Token.Numeral n) {c : Char} (hc : c ∈ n) : isBlank c = false := by
    rcases mem_numeral hn hc with hd | rfl
    · exact not_blank_of_isNameChar (Token.isNameChar_of_isDigit hd)
    · rfl
  have plain {t : Text} (ht : Plain t) {c : Char} (hc : c ∈ t) : isBlank c = false := by
    have hp := ht c hc
    simp only [isPlainChar, Bool.not_eq_true', Bool.or_eq_false_iff] at hp
    exact hp.1
  have name {n : Text} (hn : IsName n) {c : Char} (hc : c ∈ n) : isBlank c = false :=
    not_blank_of_isNameChar (hn.isNameChar hc)
  intro c hc
  cases i with
  | number negative digits =>
    cases negative with
    | true =>
      rcases List.mem_cons.mp (by simpa [text, tokens, minus] using hc) with rfl | hc
      · rfl
      · exact numeral hi hc
    | false => exact numeral hi (by simpa [text, tokens] using hc)
  | literal contents =>
    have hm : c = '\'' ∨ c ∈ contents := by simpa [text, tokens, Language.literal, or_comm] using hc
    rcases hm with rfl | hm
    · rfl
    · exact plain hi hm
  | placeholder quoted p =>
    obtain ⟨hashed, n⟩ := p
    have hm : c = '\'' ∨ c = '@' ∨ c = '#' ∨ c ∈ n := by
      cases quoted <;> cases hashed <;>
        simp [text, tokens, Language.literal, Placeholder.text, other, word] at hc <;> tauto
    rcases hm with rfl | rfl | rfl | hm
    · rfl
    · rfl
    · rfl
    · exact name hi hm
  | truth holds =>
    have hall : (truthWord holds).all (fun c => !isBlank c) = true := by cases holds <;> rfl
    simpa using List.all_eq_true.mp hall c (by simpa [text, tokens, word] using hc)

theorem trim_of_no_blank {t : Text} (h : ∀ c ∈ t, isBlank c = false) : Text.trim t = t := by
  have hskip {t : Text} (h : ∀ c ∈ t, isBlank c = false) : Text.skipBlanks t = t := by
    apply List.dropWhile_eq_self_iff.mpr
    intro hl
    simpa using h t[0] (List.getElem_mem hl)
  rw [Text.trim, hskip h, hskip fun c hc => h c (List.mem_reverse.mp hc), List.reverse_reverse]

theorem Item.not_inner {i : Item} (hi : i.Formed) : ∀ t ∈ i.tokens, isInner t = false := by
  intro t ht
  match i with
  | .number true _ | .number false _ | .literal _ | .placeholder true _ =>
    simp only [tokens, List.mem_cons, List.not_mem_nil, or_false] at ht
    rcases ht with rfl | rfl <;> rfl
  | .truth true | .truth false =>
    simp only [tokens, List.mem_cons, List.not_mem_nil, or_false] at ht
    rw [ht]
    rfl
  | .placeholder false ⟨true, n⟩ | .placeholder false ⟨false, n⟩ =>
    have hn : isInner (word n) = false := IsName.not_inner hi
    simp only [tokens, List.mem_cons, List.not_mem_nil, or_false] at ht
    rcases ht with rfl | rfl | rfl | rfl <;> first | rfl | exact hn

/-- Where no list can follow, no list starts. -/
theorem membership_of_not_inner {ls : List Lexeme}
    (h : ∀ l, ls.head? = some l → isInner l.token = false) (back : Option Lexeme) (a : Lexeme) :
    Membership.pattern back (a :: ls) = none := by
  unfold Membership.pattern
  by_cases ha : (!a.is .word || a.isWord "NOT".toList) = true
  · simp only [ha, if_true]
  · simp only [ha]
    cases ls with
    | nil => rfl
    | cons l ls =>
      have hl := h l rfl
      simp only [isInner, Bool.or_eq_false_iff] at hl
      have hnot : l.isWord "NOT".toList = false := hl.1.2
      have hin : l.isWord "IN".toList = false := hl.2
      simp only [hnot, Bool.false_eq_true, if_false]
      cases ls with
      | nil => rfl
      | cons l' ls => simp only [hin, Bool.false_and, Bool.false_eq_true, if_false]

theorem still_membership {u s : List Lexeme} (hu : ∀ l ∈ u, isInner l.token = false)
    (hs : ∀ l, s.head? = some l → isInner l.token = false) : Membership.pattern.Still u s := by
  induction u with
  | nil => exact still_nil
  | cons a u ih =>
    have hrest := ih fun l hl => hu l (List.mem_cons_of_mem a hl)
    refine still_cons.mpr ⟨fun back => membership_of_not_inner ?_ back a, hrest⟩
    intro l hl
    cases u with
    | nil => exact hs l hl
    | cons b u =>
      cases hl
      exact hu l (by simp)

theorem Ends.not_inner {s : List Lexeme} (h : Ends s) :
    ∀ l, s.head? = some l → isInner l.token = false := by
  intro l hl
  cases h with
  | nil => cases hl
  | closing _ => cases hl; rfl
  | joint hj hw =>
    cases hl
    have hlower := hj.spells
    rcases hw with rfl | rfl
    · simp only [isInner, Token.isWord, word, show Text.lower _ = _ from hlower]
      rfl
    · simp only [isInner, Token.isWord, word, show Text.lower _ = _ from hlower]
      rfl

theorem Relation.not_inner (r : Relation) : isInner r.token = false := by
  cases r <;> rfl

/-- The column, the relation and the item as a filter has them. -/
def Subject.compared (x : Subject) (relation : Relation) (i : Item) : Clause :=
  .compare (.subject x) [' '] relation [' '] i

/-- All of some clauses, as a filter has them. -/
def allOf (c : Clause) : List Clause → Rule .part
  | [] => .part (.clause c)
  | d :: ds => .both (.clause c) ⟨[' '], "and".toList, [' ']⟩ (allOf d ds)

/-- One of some clauses, as a filter has them. -/
def oneOf (c : Clause) : List Clause → Rule .whole
  | [] => .whole (.part (.clause c))
  | d :: ds => .either (.part (.clause c)) ⟨[' '], "or".toList, [' ']⟩ (oneOf d ds)

/-- A list as comparisons in parentheses. -/
def Clause.expanded : Clause → Rule .piece
  | .member x none _ _ first rest =>
    .group [] (oneOf (x.compared .eqWord first.item)
      (rest.map fun e => x.compared .eqWord e.item)) []
  | .member x (some _) _ _ first rest =>
    .group [] (.whole (allOf (x.compared .neqWord first.item)
      (rest.map fun e => x.compared .neqWord e.item))) []
  | c => .clause c

theorem truth_allOf (v : Clause → Bool) (c : Clause) (cs : List Clause) :
    (allOf c cs).truth v = (c :: cs).all v := by
  induction cs generalizing c with
  | nil => simp [allOf, Rule.truth]
  | cons d ds ih => simp only [allOf, Rule.truth, ih, List.all_cons]

theorem truth_oneOf (v : Clause → Bool) (c : Clause) (cs : List Clause) :
    (oneOf c cs).truth v = (c :: cs).any v := by
  induction cs generalizing c with
  | nil => simp [oneOf, Rule.truth]
  | cons d ds ih => simp only [oneOf, Rule.truth, ih, List.any_cons]

theorem joint_of_spelled {w t : Text} (h : Spells w t) : (⟨[' '], t, [' ']⟩ : Joint).Of w := by
  exact ⟨isGap_space, by simp, h, isGap_space, by simp⟩

theorem formed_allOf {P : Clause → Prop} {c : Clause} {cs : List Clause}
    (h : ∀ d ∈ c :: cs, P d) : (allOf c cs).Formed P := by
  induction cs generalizing c with
  | nil => exact h c (by simp)
  | cons d ds ih =>
    exact ⟨h c (by simp), joint_of_spelled rfl, ih fun a ha => h a (List.mem_cons_of_mem c ha)⟩

theorem formed_oneOf {P : Clause → Prop} {c : Clause} {cs : List Clause}
    (h : ∀ d ∈ c :: cs, P d) : (oneOf c cs).Formed P := by
  induction cs generalizing c with
  | nil => exact h c (by simp)
  | cons d ds ih =>
    exact ⟨h c (by simp), joint_of_spelled rfl, ih fun a ha => h a (List.mem_cons_of_mem c ha)⟩

/-- The text of `compared` behind its gap. -/
def comparedText (column : Text) (op : Text) (i : Item) : Text :=
  column ++ op ++ i.text

theorem text_compared {x : Subject} (ht : x.table = none ∧ x.call = none) (relation : Relation)
    (i : Item) (g : Text) :
    ((x.compared relation i).lexemes g).flatMap Lexeme.text =
      g ++ comparedText x.column (' ' :: relation.token.text ++ [' ']) i := by
  have hitem := text_spaced [' '] i.tokens_ne_nil
  simp only [Subject.compared, Clause.lexemes, Side.lexemes, x.lexemes_of_bare ht.1 ht.2,
    List.flatMap_append, List.flatMap_cons, hitem, Lexeme.text, word]
  simp [comparedText, Item.text]

/-- Clauses with the text of a connective between them. -/
theorem text_allOf {x : Subject} (ht : x.table = none ∧ x.call = none) (r : Relation) (g : Text)
    (i : Item) (is : List Item) :
    ((allOf (x.compared r i) (is.map (x.compared r))).lexemes g).flatMap Lexeme.text =
      g ++ " and ".toList.intercalate
        ((i :: is).map (comparedText x.column (' ' :: r.token.text ++ [' ']))) := by
  induction is generalizing g i with
  | nil =>
    change ((x.compared r i).lexemes g).flatMap Lexeme.text = _
    rw [text_compared ht]
    simp [List.intercalate]
  | cons j js ih =>
    rw [List.map_cons, allOf, Rule.lexemes, Rule.lexemes, List.flatMap_append, text_compared ht,
      List.flatMap_cons, ih]
    simp [List.intercalate, Lexeme.text, word]

theorem text_oneOf {x : Subject} (ht : x.table = none ∧ x.call = none) (r : Relation) (g : Text)
    (i : Item) (is : List Item) :
    ((oneOf (x.compared r i) (is.map (x.compared r))).lexemes g).flatMap Lexeme.text =
      g ++ " or ".toList.intercalate
        ((i :: is).map (comparedText x.column (' ' :: r.token.text ++ [' ']))) := by
  induction is generalizing g i with
  | nil =>
    change ((x.compared r i).lexemes g).flatMap Lexeme.text = _
    rw [text_compared ht]
    simp [List.intercalate]
  | cons j js ih =>
    rw [List.map_cons, oneOf, Rule.lexemes, Rule.lexemes, Rule.lexemes, List.flatMap_append,
      text_compared ht, List.flatMap_cons, ih]
    simp [List.intercalate, Lexeme.text, word]

/-- What stands in the parentheses of a list. -/
theorem entries_eq (e : Entry) (es : List Entry) :
    ∃ ls g, entries e es = ls ++ [⟨g, closing⟩] ∧
      (∀ l ∈ ls, l.is .parenLeft = false ∧ l.is .parenRight = false) ∧
      cut (·.is .comma) ls = (e :: es).map fun f => spaced f.gap f.item.tokens := by
  have item (f : Entry) {l : Lexeme} (hl : l ∈ spaced f.gap f.item.tokens) :
      (l.is .parenLeft = false ∧ l.is .parenRight = false) ∧ l.is .comma = false := by
    have hk := f.item.kind_of_mem (mem_spaced hl)
    simp only [List.mem_cons, List.not_mem_nil, or_false] at hk
    rcases hk with h | h | h | h | h <;> simp [Lexeme.is, h]
  induction es generalizing e with
  | nil =>
    refine ⟨spaced e.gap e.item.tokens, e.behind, rfl, fun l hl => (item e hl).1, ?_⟩
    exact cut_of_none fun l hl => (item e hl).2
  | cons f es ih =>
    obtain ⟨ls, g, he, hinner, hcut⟩ := ih (e := f)
    refine ⟨spaced e.gap e.item.tokens ++ ⟨e.behind, comma⟩ :: ls, g, ?_, ?_, ?_⟩
    · rw [entries, he, List.append_assoc, List.cons_append]
    · intro l hl
      rcases List.mem_append.mp hl with hl | hl
      · exact (item e hl).1
      · rcases List.mem_cons.mp hl with rfl | hl
        · exact ⟨rfl, rfl⟩
        · exact hinner l hl
    · rw [cut_append (fun l hl => (item e hl).2) rfl, hcut]
      rfl

theorem slice_spaced (g : Text) (i : Item) : slice (spaced g i.tokens) = i.text := by
  obtain ⟨t, ts, h⟩ := List.exists_cons_of_ne_nil i.tokens_ne_nil
  simp [Item.text, h, spaced, slice, text_unspaced]

/-- The items of a list are read up to its parenthesis. -/
theorem items?_entries {e : Entry} {es : List Entry} (h : ∀ f ∈ e :: es, f.Formed)
    (s : List Lexeme) :
    Membership.items? (entries e es ++ s) = some ((e :: es).map (·.item.text), s) := by
  obtain ⟨ls, g, he, hinner, hcut⟩ := entries_eq e es
  have hls : ∀ l ∈ ls, (!(l.is .parenLeft || l.is .parenRight)) = true := by
    intro l hl
    simp [hinner l hl]
  have hrun : entries e es ++ s = ls ++ (⟨g, closing⟩ :: s) := by
    rw [he, List.append_assoc, List.singleton_append]
  obtain ⟨htake, hdrop⟩ := run_append (r := ⟨g, closing⟩ :: s) hls rfl
  have hitems : ((e :: es).map fun f => spaced f.gap f.item.tokens).all (!·.isEmpty) = true := by
    rw [List.all_map]
    apply List.all_eq_true.mpr
    intro f _
    obtain ⟨t, ts, ht⟩ := List.exists_cons_of_ne_nil f.item.tokens_ne_nil
    simp [Function.comp, ht, spaced]
  have htrim : ((e :: es).map fun f => spaced f.gap f.item.tokens).map
      (fun item => Text.trim (slice item)) = (e :: es).map (·.item.text) := by
    rw [List.map_map]
    apply List.map_congr_left
    intro f hf
    simp only [Function.comp, slice_spaced]
    exact trim_of_no_blank (Item.no_blank (h f hf).item)
  have hclose : (⟨g, closing⟩ : Lexeme).is .parenRight = true := rfl
  unfold Membership.items?
  rw [hrun]
  simp only [hdrop, htake, hcut, hitems, hclose, htrim, Bool.and_self, if_true]

/-- A list is read as a whole. -/
theorem membership_member {x : Subject} (hx : x.Formed) (hbare : x.table = none ∧ x.call = none)
    {negation : Option Spelling} (hn : ∀ n, negation = some n → n.Of "NOT".toList)
    {membership : Spelling} (hm : membership.Of "IN".toList) (beforeOpen : Text) {first : Entry}
    {rest : List Entry} (he : ∀ e ∈ first :: rest, e.Formed) (g : Text) (s : List Lexeme)
    (back : Option Lexeme) :
    Membership.pattern back
        ((Clause.member x negation membership beforeOpen first rest).lexemes g ++ s) =
      some (⟨g, x.column, negation.isSome, (first :: rest).map (·.item.text)⟩, s) := by
  have hfree : (⟨g, word x.column⟩ : Lexeme).isWord "NOT".toList = false :=
    hx.column.free _ (by decide)
  have hlexemes : (Clause.member x negation membership beforeOpen first rest).lexemes g ++ s =
      ⟨g, word x.column⟩ :: (negation.toList.map Spelling.lexeme ++
        membership.lexeme :: ⟨beforeOpen, opening⟩ :: (entries first rest ++ s)) := by
    rw [Clause.lexemes, x.lexemes_of_bare hbare.1 hbare.2]
    simp
  have hcolumn : (⟨g, word x.column⟩ : Lexeme).is .word = true := rfl
  have hin : membership.lexeme.isWord "IN".toList = true := hm.spells.isWord
  have hopen : (⟨beforeOpen, opening⟩ : Lexeme).is .parenLeft = true := rfl
  have hitems := items?_entries he s
  rw [hlexemes]
  cases negation with
  | none =>
    have hnot : membership.lexeme.isWord "NOT".toList = false := hm.spells.isWord
    simp only [Membership.pattern, hcolumn, hfree, hnot, hin, hopen, hitems, Option.toList_none,
      List.map_nil, List.nil_append, Bool.not_true, Bool.or_self, Bool.and_self, Bool.false_eq_true,
      if_false, if_true, Option.map_some, Option.isSome_none]
    rfl
  | some n =>
    have hnot : n.lexeme.isWord "NOT".toList = true := (hn n rfl).spells.isWord
    simp only [Membership.pattern, hcolumn, hfree, hnot, hin, hopen, hitems, Option.toList_some,
      List.map_cons, List.map_nil, List.cons_append, List.nil_append, Bool.not_true, Bool.or_self,
      Bool.and_self, Bool.false_eq_true, if_false, if_true, Option.map_some, Option.isSome_some]
    rfl

/-- How lexemes are written where lists are written out. -/
abbrev Expands (u s u' : List Lexeme) : Prop :=
  Membership.pattern.Turns Lexeme.text Membership.text u s (u'.flatMap Lexeme.text)

theorem text_expanded {x : Subject} (hbare : x.table = none ∧ x.call = none)
    (negation : Option Spelling) (membership : Spelling) (beforeOpen : Text) (first : Entry)
    (rest : List Entry) (g : Text) :
    (((Clause.member x negation membership beforeOpen first rest).expanded).lexemes g).flatMap
        Lexeme.text =
      Membership.text
        ⟨g, x.column, negation.isSome, (first :: rest).map (·.item.text)⟩ := by
  have hmap (r : Relation) : (rest.map fun e => x.compared r e.item) =
      (rest.map Entry.item).map (x.compared r) := by
    rw [List.map_map]
    rfl
  have hitems (op : Text) : (first.item :: rest.map Entry.item).map (comparedText x.column op) =
      ((first :: rest).map (·.item.text)).map fun item => x.column ++ op ++ item := by
    rw [← List.map_cons (f := Entry.item), List.map_map, List.map_map]
    rfl
  cases negation with
  | none =>
    rw [Clause.expanded, Rule.lexemes, List.flatMap_cons, List.flatMap_append, hmap,
      text_oneOf hbare, hitems]
    simp [Membership.text, Lexeme.text, opening, closing, Relation.token, word]
  | some n =>
    rw [Clause.expanded, Rule.lexemes, Rule.lexemes, List.flatMap_cons, List.flatMap_append, hmap,
      text_allOf hbare, hitems]
    simp [Membership.text, Lexeme.text, opening, closing, Relation.token, word]

theorem Clause.expands {c : Clause} (hc : c.Settled) (g : Text) {s : List Lexeme} (hs : Ends s) :
    Expands (c.lexemes g) s (c.expanded.lexemes g) := by
  have hformed := hc.formed
  match c with
  | .compare left before relation behind right =>
    have hright : ∀ l ∈ spaced behind right.tokens, isInner l.token = false :=
      fun l hl => right.not_inner hformed.2.2.2.1 l.token (mem_spaced hl)
    have hleft : ∀ l ∈ left.lexemes g, isInner l.token = false := by
      intro l hl
      match left with
      | .item i => exact i.not_inner hformed.1 l.token (mem_spaced hl)
      | .subject x =>
        have hbare := hc.bare x rfl
        rw [Side.lexemes, x.lexemes_of_bare hbare.1 hbare.2] at hl
        rw [List.mem_singleton.mp hl]
        exact (show x.Formed from hformed.1).column.not_inner
    apply Turns.of_still
    refine still_membership ?_ hs.not_inner
    intro l hl
    rcases List.mem_append.mp hl with hl | hl
    · exact hleft l hl
    · rcases List.mem_cons.mp hl with rfl | hl
      · exact relation.not_inner
      · exact hright l hl
  | .member x negation membership beforeOpen first rest =>
    obtain ⟨hx, hn, hm, -, he⟩ := hformed
    have hbare := hc.bare x rfl
    have hit := membership_member hx hbare hn hm beforeOpen he g s
    have hne : (Clause.member x negation membership beforeOpen first rest).lexemes g ≠ [] := by
      rw [Clause.lexemes, x.lexemes_of_bare hbare.1 hbare.2]
      exact List.cons_ne_nil _ _
    rw [Expands, text_expanded hbare]
    exact Turns.of_hit hne hit

theorem carries_expands : Carries Expands id Clause.expanded Clause.Settled := by
  have sign {t : Token} (ht : t.kind ≠ .word) (g : Text) (s : List Lexeme) :
      Expands [⟨g, t⟩] s [⟨g, t⟩] := by
    apply Turns.of_still
    refine still_cons.mpr ⟨fun back => ?_, still_nil⟩
    have hword : (⟨g, t⟩ : Lexeme).is .word = false := by simpa [Lexeme.is] using ht
    simp only [Membership.pattern, hword, Bool.not_false, Bool.true_or, if_true]
  refine ⟨?_, ?_, ?_, ?_, ?_⟩
  · intro u v s u' v' hu hv
    have hturn := Turns.append hu hv
    rwa [← List.flatMap_append] at hturn
  · intro g s _
    exact sign (by decide) g s
  · intro g s _
    exact sign (by decide) g s
  · intro j w s hj hw hs
    obtain ⟨l, ls, rfl, -, -, hl⟩ := hs
    apply Turns.of_still
    refine still_cons.mpr ⟨fun back => membership_of_not_inner ?_ back _, still_nil⟩
    intro a ha
    cases ha
    exact hl
  · intro c g s hc _ hs
    exact c.expands hc g hs

/-- The fifth pass writes the lists of a rule out. -/
theorem expandLists_text {r : Rule k} (hr : r.Formed Clause.Settled) {lead tail : Text}
    (hlead : IsGap lead) (htail : IsGap tail) :
    expandLists (r.text lead tail) = .ok ((r.rebuild id Clause.expanded).text lead tail) := by
  have hs : scan (r.text lead tail) = .ok ⟨r.lexemes lead, tail⟩ :=
    scan_eq_ok_iff.mpr ⟨rfl, r.fit (hr.mono fun _ h => h.formed) hlead htail, htail⟩
  have hturn := carries_expands.rule (fun _ h => h.formed) hr hlead .nil
  rw [expandLists, hs]
  simp only [Except.map, Rule.text, hturn.render]

def Clause.isList : Clause → Bool
  | .compare _ _ _ _ _ => false
  | .member _ _ _ _ _ _ => true

/-- A comparison of a column, or a marker. -/
structure Clause.Simple (c : Clause) : Prop where
  settled : c.Settled
  marked : c.Marked
  no_list : c.isList = false

theorem Subject.simple_compared {x : Subject} (hx : x.Formed)
    (hbare : x.table = none ∧ x.call = none) (r : Relation) {i : Item} (hi : i.Formed)
    (hv : i.Valued) : (x.compared r i).Simple := by
  refine ⟨⟨⟨hx, isGap_space, isGap_space, hi, fun _ => ⟨by simp, by simp⟩⟩, ?_, hv⟩, ?_, rfl⟩
  · intro y hy
    cases hy
    exact hbare
  · intro i before relation behind right he
    cases he

theorem Clause.formed_expanded {P : Clause → Prop} {x : Subject} {negation : Option Spelling}
    {membership : Spelling} {beforeOpen : Text} {first : Entry} {rest : List Entry}
    (h : ∀ r, ∀ e ∈ first :: rest, P (x.compared r e.item)) :
    (Clause.member x negation membership beforeOpen first rest).expanded.Formed P := by
  have hall (r : Relation) :
      ∀ d ∈ x.compared r first.item :: rest.map (fun e => x.compared r e.item), P d := by
    intro d hd
    obtain ⟨e, he, rfl⟩ :=
      List.mem_map.mp (show d ∈ (first :: rest).map fun e => x.compared r e.item from hd)
    exact h r e he
  cases negation with
  | none => exact ⟨isGap_nil, formed_oneOf (hall .eqWord), isGap_nil⟩
  | some n => exact ⟨isGap_nil, formed_allOf (hall .neqWord), isGap_nil⟩

theorem Clause.expanded_spec {c : Clause} (hc : c.Settled) (hm : c.Marked) (b : Bindings)
    (row : Row) :
    c.expanded.Formed Clause.Simple ∧
      c.expanded.truth (Clause.truth b row) = c.truth b row := by
  match c with
  | .compare left before relation behind right => exact ⟨⟨hc, hm, rfl⟩, rfl⟩
  | .member x negation membership beforeOpen first rest =>
    obtain ⟨hx, -, -, -, he⟩ := hc.formed
    have hbare := hc.bare x rfl
    refine ⟨formed_expanded fun r e hmem => ?_, ?_⟩
    · exact x.simple_compared hx hbare r (he e hmem).item (hc.valued e hmem)
    · cases negation with
      | none =>
        rw [expanded, Rule.truth, truth_oneOf]
        simp [truth, Subject.compared, Relation.holds, List.any_map, Function.comp_def]
      | some n =>
        rw [expanded, Rule.truth, Rule.truth, truth_allOf]
        simp [truth, Subject.compared, Relation.holds, List.all_map, Function.comp_def]

end Language

end WhereFilter
