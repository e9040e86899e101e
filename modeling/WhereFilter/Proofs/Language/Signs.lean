import WhereFilter.Proofs.Language.Lists
import WhereFilter.Proofs.Rule.Operators

namespace WhereFilter

namespace Language

open Reading (unspaced)

/-- How lexemes are written where tokens are spelled anew. -/
abbrev Respells (spelling : Token → Option Text) (u _s u' : List Lexeme) : Prop :=
  respelled spelling u = u'.flatMap Lexeme.text

/-- What is spelled anew in a rule is what is spelled anew in its connectives and clauses. -/
theorem carries_respells {spelling : Token → Option Text} {spell : Text → Text}
    {f : Clause → Clause} {P : Clause → Prop} (hopen : spelling opening = none)
    (hclose : spelling closing = none)
    (hjoint : ∀ (j : Joint) (w : Text), j.Of w → IsConnective w →
      (spelling (word j.text)).getD j.text = spell j.text)
    (hclause : ∀ c, P c → ∀ g, respelled spelling (c.lexemes g) =
      ((f c).lexemes g).flatMap Lexeme.text) :
    Carries (Respells spelling) spell (fun c => .clause (f c)) P := by
  refine ⟨?_, ?_, ?_, ?_, ?_⟩
  · intro u v s u' v' hu hv
    rw [Respells, respelled_append, hu, hv, List.flatMap_append]
  · intro g s _
    exact respelled_of_none (by simpa using hopen)
  · intro g s _
    exact respelled_of_none (by simpa using hclose)
  · intro j w s hj hw _
    have hword : (word j.text).text = j.text := rfl
    rw [Respells, respelled_cons, hword, hjoint j w hj hw]
    simp [respelled, Lexeme.text, word]
  · intro c g s hc _ _
    exact hclause c hc g

theorem respell_text {spelling : Token → Option Text} {spell : Text → Text} {f : Clause → Clause}
    {P : Clause → Prop} (h : Carries (Respells spelling) spell (fun c => .clause (f c)) P)
    (hP : ∀ c, P c → c.Formed) {r : Rule k} (hr : r.Formed P) {lead tail : Text}
    (hlead : IsGap lead) (htail : IsGap tail) :
    respell spelling (r.text lead tail) =
      .ok ((r.rebuild spell fun c => .clause (f c)).text lead tail) := by
  have hs : scan (r.text lead tail) = .ok ⟨r.lexemes lead, tail⟩ :=
    scan_eq_ok_iff.mpr ⟨rfl, r.fit (hr.mono hP) hlead htail, htail⟩
  have hall : respelled spelling (r.lexemes lead) = _ := h.rule hP hr hlead .nil
  rw [respell, hs]
  exact congrArg (fun t => Except.ok (t ++ tail)) hall

/-- The clause with the words that `spell` has for its sign, set apart by spaces. -/
def Clause.worded (spell : Relation → Option Relation) : Clause → Clause
  | .compare left before relation behind right =>
    match spell relation with
    | some spelled => .compare left (before ++ [' ']) spelled (' ' :: behind) right
    | none => .compare left before relation behind right
  | c => c

def Relation.unequalWord : Relation → Option Relation
  | .notEquals | .bangEquals => some .neqWord
  | _ => none

def Relation.equalWord : Relation → Option Relation
  | .equals | .doubleEquals => some .eqWord
  | _ => none

/-- A spelling that knows signs alone leaves names and items as they are. -/
theorem Clause.respells {spelling : Token → Option Text} {spell : Relation → Option Relation}
    (hkeep : ∀ t : Token, t.kind ∈ [Kind.minus, .number, .literal, .other, .word] →
      spelling t = none)
    (hsign : ∀ r : Relation, spelling r.token =
      (spell r).map fun spelled => ' ' :: spelled.token.text ++ [' '])
    {c : Clause} (hc : c.Settled) (hlist : c.isList = false) (g : Text) :
    respelled spelling (c.lexemes g) = ((c.worded spell).lexemes g).flatMap Lexeme.text := by
  have item (i : Item) (g : Text) : respelled spelling (spaced g i.tokens) =
      (spaced g i.tokens).flatMap Lexeme.text :=
    respelled_of_none fun l hl => hkeep _ (i.kind_of_mem (mem_spaced hl))
  match c with
  | .compare left before relation behind right =>
    have hleft : respelled spelling (left.lexemes g) = (left.lexemes g).flatMap Lexeme.text := by
      match left with
      | .item i => exact item i g
      | .subject x =>
        have hbare := hc.bare x rfl
        rw [Side.lexemes, x.lexemes_of_bare hbare.1 hbare.2]
        exact respelled_of_none (by simpa using hkeep (word x.column) (by simp [word]))
    rw [lexemes, respelled_append, respelled_cons, hleft, item, hsign]
    cases h : spell relation with
    | none => simp [worded, h, lexemes, Lexeme.text]
    | some spelled =>
      simp [worded, h, lexemes, Lexeme.text, text_spaced _ right.tokens_ne_nil]

/-- A word that says what the sign says keeps what the clause says. -/
theorem Clause.truth_worded {spell : Relation → Option Relation}
    (hholds : ∀ r spelled, spell r = some spelled → spelled.holds = r.holds) (c : Clause)
    (b : Bindings) (row : Row) :
    (c.worded spell).truth b row = c.truth b row := by
  match c with
  | .member _ _ _ _ _ _ => rfl
  | .compare left before relation behind right =>
    cases h : spell relation with
    | none => simp [worded, h]
    | some spelled =>
      cases left with
      | subject x => simp [worded, h, truth, hholds relation spelled h]
      | item i => simp [worded, h, truth]

theorem isGap_append_space {g : Text} (hg : IsGap g) : IsGap (g ++ [' ']) ∧ IsGap (' ' :: g) := by
  exact ⟨hg.append isGap_space, isGap_space.append hg⟩

theorem Clause.Simple.worded {spell : Relation → Option Relation}
    (hmark : ∀ r spelled, spell r = some spelled → r = .equals ∨ r = .eqWord → spelled = .eqWord)
    {c : Clause} (hc : c.Simple) : (c.worded spell).Simple := by
  match c, hc with
  | .member _ _ _ _ _ _, hc => exact hc
  | .compare left before relation behind right, hc =>
    cases h : spell relation with
    | none => simpa only [Clause.worded, h] using hc
    | some spelled =>
      obtain ⟨⟨hformed, hbare, hvalued⟩, hmarked, hlist⟩ := hc
      obtain ⟨hl, hbefore, hbehind, hr, hapart⟩ := hformed
      simp only [Clause.worded, h]
      refine ⟨⟨⟨hl, (isGap_append_space hbefore).1, (isGap_append_space hbehind).2, hr,
        fun _ => ⟨by simp, by simp⟩⟩, ?_, ?_⟩, ?_, rfl⟩
      · cases left with
        | subject x => exact fun y hy => hbare y hy
        | item i => exact fun y hy => hbare y hy
      · cases left with
        | subject x => exact hvalued
        | item i => exact hvalued
      · intro i before' relation' behind' right' he
        cases he
        obtain ⟨hi, hrel, hright⟩ := hmarked _ _ _ _ _ rfl
        exact ⟨hi, .inr (hmark relation spelled h hrel), hright⟩

/-- The relation of the clause, if it has one. -/
def Clause.relation? : Clause → Option Relation
  | .compare _ _ relation _ _ => some relation
  | .member _ _ _ _ _ _ => none

/-- The clause has no sign that filters have a word for. -/
def Clause.Worded (spell : Relation → Option Relation) (c : Clause) : Prop :=
  ∀ r, c.relation? = some r → spell r = none

theorem Clause.worded_eq {spell : Relation → Option Relation} {c : Clause} (hc : c.Worded spell) :
    c.worded spell = c := by
  match c with
  | .member _ _ _ _ _ _ => rfl
  | .compare left before relation behind right =>
    simp only [worded, hc relation rfl]

theorem Clause.worded_worded {spell spell' : Relation → Option Relation}
    (h : ∀ r spelled, spell r = some spelled → spell' spelled = none) {c : Clause}
    (hc : ∀ r, c.relation? = some r → spell r = none → spell' r = none) :
    (c.worded spell).Worded spell' := by
  match c with
  | .member _ _ _ _ _ _ =>
    intro r hr
    cases hr
  | .compare left before relation behind right =>
    intro r hr
    cases hs : spell relation with
    | none =>
      simp only [worded, hs] at hr
      cases hr
      exact hc relation rfl hs
    | some spelled =>
      simp only [worded, hs] at hr
      cases hr
      exact h relation r hs

/-- No word but a connective is spelled anew, and it is spelled in lower case. -/
theorem connectiveSpelling_joint {w t : Text} (hw : IsConnective w) (h : Spells w t) :
    connectiveSpelling (word t) = some (Text.lower t) := by
  have hlower : Text.lower t = Text.lower w := h
  rw [connectiveSpelling, h.isWord, h.isWord, hlower]
  rcases hw with rfl | rfl <;> rfl

theorem connectiveSpelling_of_kind {t : Token} (h : t.kind ≠ .word) :
    connectiveSpelling t = none := by
  have hk : (t.kind == Kind.word) = false := by simpa using h
  simp only [connectiveSpelling, Token.isWord, hk, Bool.false_and, Bool.false_eq_true, if_false]

theorem IsName.no_connective {n : Text} (h : IsName n) :
    connectiveSpelling (word n) = none := by
  have hand := h.free "AND".toList (by simp [keywords])
  have hor := h.free "OR".toList (by simp [keywords])
  simp only [connectiveSpelling, hand, hor, Bool.false_eq_true, if_false]

theorem Item.no_connective {i : Item} (hv : i.Valued) {t : Token} (ht : t ∈ i.tokens) :
    connectiveSpelling t = none := by
  match i with
  | .number true _ | .number false _ | .literal _ =>
    simp only [tokens, List.mem_cons, List.not_mem_nil, or_false] at ht
    rcases ht with rfl | rfl <;> exact connectiveSpelling_of_kind (by simp [minus, Language.literal])
  | .truth holds =>
    simp only [tokens, List.mem_cons, List.not_mem_nil, or_false] at ht
    subst ht
    cases holds <;> rfl

theorem Clause.Simple.no_connective {c : Clause} (hc : c.Simple) (g : Text) :
    ∀ l ∈ c.lexemes g, connectiveSpelling l.token = none := by
  match c, hc with
  | .member _ _ _ _ _ _, hc => cases hc.no_list
  | .compare left before relation behind right, hc =>
    intro l hl
    rcases List.mem_append.mp hl with hl | hl
    · cases left with
      | item i => exact i.no_connective hc.settled.valued.1 (mem_spaced hl)
      | subject x =>
        have hbare := hc.settled.bare x rfl
        rw [Side.lexemes, x.lexemes_of_bare hbare.1 hbare.2] at hl
        rw [List.mem_singleton.mp hl]
        exact (show x.Formed from hc.settled.formed.1).column.no_connective
    · rcases List.mem_cons.mp hl with rfl | hl
      · cases relation <;> rfl
      · have hright : right.Valued := by
          cases left with
          | item i => exact hc.settled.valued.2
          | subject x => exact hc.settled.valued
        exact right.no_connective hright (mem_spaced hl)

theorem carries_connectives :
    Carries (Respells connectiveSpelling) Text.lower .clause Clause.Simple := by
  have hopen : connectiveSpelling opening = none := connectiveSpelling_of_kind (by decide)
  have hclose : connectiveSpelling closing = none := connectiveSpelling_of_kind (by decide)
  refine carries_respells (f := id) hopen hclose ?_ ?_
  · intro j w hj hw
    rw [connectiveSpelling_joint hw hj.spells]
    rfl
  · exact fun c hc g => respelled_of_none (hc.no_connective g)

theorem carries_unequal :
    Carries (Respells unequalSpelling) id (fun c => .clause (c.worded Relation.unequalWord))
      Clause.Simple := by
  refine carries_respells rfl rfl (fun _ _ _ _ => rfl) fun c hc g => ?_
  refine Clause.respells ?_ (fun r => by cases r <;> rfl) hc.settled hc.no_list g
  intro t ht
  obtain ⟨kind, text⟩ := t
  cases kind <;> first | rfl | exact absurd ht (by simp)

theorem carries_equal :
    Carries (Respells equalSpelling) id (fun c => .clause (c.worded Relation.equalWord))
      Clause.Simple := by
  refine carries_respells rfl rfl (fun _ _ _ _ => rfl) fun c hc g => ?_
  refine Clause.respells ?_ (fun r => by cases r <;> rfl) hc.settled hc.no_list g
  intro t ht
  obtain ⟨kind, text⟩ := t
  cases kind <;> first | rfl | exact absurd ht (by simp)

/-- A clause with the words that filters have for its sign. -/
structure Clause.Spelled (c : Clause) : Prop where
  simple : c.Simple
  no_unequal : c.Worded Relation.unequalWord
  no_equal : c.Worded Relation.equalWord

theorem Clause.Simple.unequal {c : Clause} (hc : c.Simple) :
    (c.worded Relation.unequalWord).Simple ∧
      (c.worded Relation.unequalWord).Worded Relation.unequalWord := by
  refine ⟨hc.worded fun r spelled h hr => ?_, Clause.worded_worded (fun r spelled h => ?_)
    fun _ _ h => h⟩
  · rcases hr with rfl | rfl <;> cases h
  · cases r <;> cases h <;> rfl

theorem Clause.Simple.equal {c : Clause} (hc : c.Simple) (hw : c.Worded Relation.unequalWord) :
    (c.worded Relation.equalWord).Spelled := by
  have hword {r spelled : Relation} (h : Relation.equalWord r = some spelled) :
      spelled = .eqWord := by
    cases r <;> cases h <;> rfl
  refine ⟨hc.worded fun r spelled h _ => hword h, Clause.worded_worded (fun r spelled h => ?_)
    fun r hr _ => hw r hr, Clause.worded_worded (fun r spelled h => ?_) fun _ _ h => h⟩
  · rw [hword h]
    rfl
  · rw [hword h]
    rfl

end Language

end WhereFilter
