import WhereFilter.Proofs.Language.Layout
import WhereFilter.Proofs.Rule.Removal
import WhereFilter.Proofs.Text.Turns

namespace WhereFilter

namespace Language

open Pattern Reading

theorem mem_spaced {l : Lexeme} {g : Text} {ts : List Token} (h : l ∈ spaced g ts) : l.token ∈ ts := by
  cases ts with
  | nil => cases h
  | cons t ts =>
    rcases List.mem_cons.mp h with rfl | h
    · simp
    · obtain ⟨u, hu, rfl⟩ := List.mem_map.mp h
      exact List.mem_cons_of_mem t hu

/-- The lexemes of a list are those of its items, commas and a parenthesis. -/
theorem mem_entries {l : Lexeme} {e : Entry} {es : List Entry} (h : l ∈ entries e es) :
    l.token = comma ∨ l.token = closing ∨ ∃ f ∈ e :: es, l.token ∈ f.item.tokens := by
  induction es generalizing e with
  | nil =>
    rcases List.mem_append.mp h with h | h
    · exact .inr (.inr ⟨e, by simp, mem_spaced h⟩)
    · exact .inr (.inl (by rw [List.mem_singleton.mp h]))
  | cons f es ih =>
    rcases List.mem_append.mp h with h | h
    · exact .inr (.inr ⟨e, by simp, mem_spaced h⟩)
    · rcases List.mem_cons.mp h with rfl | h
      · exact .inl rfl
      · rcases ih h with h | h | ⟨f', hf, ht⟩
        · exact .inl h
        · exact .inr (.inl h)
        · exact .inr (.inr ⟨f', List.mem_cons_of_mem e hf, ht⟩)

theorem Item.kind_of_mem {i : Item} {t : Token} (h : t ∈ i.tokens) :
    t.kind ∈ [Kind.minus, .number, .literal, .other, .word] := by
  match i with
  | .number true _ | .number false _ | .literal _ | .placeholder true _ | .truth _
  | .placeholder false ⟨true, _⟩ | .placeholder false ⟨false, _⟩ =>
    simp only [tokens, List.mem_cons, List.not_mem_nil, or_false] at h
    rcases h with rfl | rfl | rfl | rfl <;> simp [minus, Language.literal, other, word]

theorem Item.no_dot {i : Item} {g : Text} {l : Lexeme} (h : l ∈ spaced g i.tokens) :
    l.is .dot = false := by
  have hk := i.kind_of_mem (mem_spaced h)
  cases hd : l.is .dot with
  | false => rfl
  | true =>
    have he : l.token.kind = .dot := by simpa [Lexeme.is] using hd
    rw [he] at hk
    exact absurd hk (by decide)

theorem Relation.no_dot (r : Relation) (g : Text) : (⟨g, r.token⟩ : Lexeme).is .dot = false := by
  cases r <;> rfl

theorem Clause.no_dot_member {negation : Option Spelling} {membership : Spelling}
    {beforeOpen : Text} {first : Entry} {rest : List Entry} {l : Lexeme}
    (h : l ∈ negation.toList.map Spelling.lexeme ++
      membership.lexeme :: ⟨beforeOpen, opening⟩ :: entries first rest) : l.is .dot = false := by
  simp only [List.mem_append, List.mem_map, List.mem_cons] at h
  rcases h with ⟨n, _, rfl⟩ | rfl | rfl | h
  · rfl
  · rfl
  · rfl
  · rcases mem_entries h with h | h | ⟨f, _, ht⟩
    · rw [Lexeme.is, h]
      rfl
    · rw [Lexeme.is, h]
      rfl
    · have hk := f.item.kind_of_mem ht
      cases hd : l.is .dot with
      | false => rfl
      | true =>
        have he : l.token.kind = .dot := by simpa [Lexeme.is] using hd
        rw [he] at hk
        exact absurd hk (by decide)

/-- A list that does not go on with a dot. -/
def NoDot (s : List Lexeme) : Prop :=
  ∀ l, s.head? = some l → l.is .dot = false

theorem Ends.no_dot {s : List Lexeme} (h : Ends s) : NoDot s := by
  intro l hl
  cases h with
  | nil => cases hl
  | closing _ => cases hl; rfl
  | joint _ _ => cases hl; rfl

theorem still_qualified {u s : List Lexeme} (hu : ∀ l ∈ u, l.is .dot = false) (hs : NoDot s) :
    qualified.Still u s := by
  induction u with
  | nil => exact still_nil
  | cons a u ih =>
    refine still_cons.mpr ⟨?_, ih fun l hl => hu l (List.mem_cons_of_mem a hl)⟩
    intro back
    cases h : qualified back (a :: (u ++ s)) with
    | none => rfl
    | some hit =>
      obtain ⟨t, d, c, he, -, -, hd, -⟩ := qualified_eq_some.mp h
      have htail := (List.cons.inj he).2
      cases u with
      | nil =>
        have hdot := hs d (by rw [List.nil_append] at htail; rw [htail]; rfl)
        rw [hd] at hdot
        cases hdot
      | cons b u =>
        have hdot := hu b (by simp)
        rw [(List.cons.inj htail).1, hd] at hdot
        cases hdot

namespace Subject

def unqualified (x : Subject) : Subject :=
  { x with table := none }

def uncalled (x : Subject) : Subject :=
  { x with call := none }

end Subject

namespace Clause

/-- The clause with `f` at its column. -/
def mapSubject (f : Subject → Subject) : Clause → Clause
  | .compare (.subject x) before relation behind right =>
    .compare (.subject (f x)) before relation behind right
  | .compare (.item i) before relation behind right => .compare (.item i) before relation behind right
  | .member x negation membership beforeOpen first rest =>
    .member (f x) negation membership beforeOpen first rest

/-- The column of the clause, if it has one. -/
def subject? : Clause → Option Subject
  | .compare (.subject x) _ _ _ _ | .member x _ _ _ _ _ => some x
  | .compare (.item _) _ _ _ _ => none

theorem Formed.mapSubject {f : Subject → Subject} (hf : ∀ x, x.Formed → (f x).Formed) {c : Clause}
    (hc : c.Formed) : (c.mapSubject f).Formed := by
  match c with
  | .compare (.subject x) _ _ _ _ => exact ⟨hf x hc.1, hc.2⟩
  | .compare (.item i) _ _ _ _ => exact hc
  | .member x _ _ _ _ _ => exact ⟨hf x hc.1, hc.2⟩

end Clause

theorem Subject.Formed.unqualified {x : Subject} (hx : x.Formed) : x.unqualified.Formed :=
  ⟨by simp [Subject.unqualified], hx.column, hx.call⟩

theorem Subject.Formed.uncalled {x : Subject} (hx : x.Formed) : x.uncalled.Formed :=
  ⟨hx.table, hx.column, by simp [Subject.uncalled]⟩

/-- How lexemes are written where table names are dropped. -/
abbrev DropsTables (u s u' : List Lexeme) : Prop :=
  qualified.Turns (fun l => [l]) (fun c => [c]) u s u'

theorem dropsTables_of_still {u s : List Lexeme} (h : qualified.Still u s) : DropsTables u s u := by
  have ht : qualified.Turns (fun l => [l]) (fun c => [c]) u s (u.flatMap fun l => [l]) :=
    Turns.of_still h
  rwa [List.flatMap_singleton'] at ht

theorem Subject.dropsTables_name {x : Subject} (g : Text) {s : List Lexeme} (hs : NoDot s) :
    DropsTables (x.name g) s (x.unqualified.name g) := by
  unfold name
  cases ht : x.table with
  | none => exact dropsTables_of_still (still_qualified (by simp [Lexeme.is, word]) hs)
  | some t =>
    let column : Lexeme := ⟨g, word x.column⟩
    have hit (back : Option Lexeme) : qualified back
        ([⟨g, word t⟩, ⟨[], dot⟩, ⟨[], word x.column⟩] ++ s) = some (column, s) := rfl
    exact Turns.of_hit (List.cons_ne_nil _ _) hit

theorem Subject.dropsTables {x : Subject} (g : Text) {s : List Lexeme} (hs : NoDot s) :
    DropsTables (x.lexemes g) s (x.unqualified.lexemes g) := by
  unfold lexemes
  cases hk : x.call with
  | none =>
    simp only [unqualified, hk]
    exact x.dropsTables_name g hs
  | some k =>
    simp only [unqualified, hk]
    let front : List Lexeme := [⟨g, word k.spelling⟩, ⟨k.beforeOpen, opening⟩]
    let rest : List Lexeme :=
      [⟨k.beforeComma, comma⟩, ⟨k.behindComma, literal k.contents⟩, ⟨k.beforeClose, closing⟩]
    have hfront : DropsTables front ((x.name k.inside ++ rest) ++ s) front := by
      apply dropsTables_of_still
      apply still_qualified
      · simp [front, Lexeme.is, word, opening]
      · intro l hl
        unfold name at hl
        cases ht : x.table <;> rw [ht] at hl <;> cases hl <;> rfl
    have hname : DropsTables (x.name k.inside) (rest ++ s) (x.unqualified.name k.inside) := by
      apply x.dropsTables_name
      intro l hl
      cases hl
      rfl
    have hrest : DropsTables rest s rest := by
      apply dropsTables_of_still
      exact still_qualified (by simp [rest, Lexeme.is, comma, literal, closing]) hs
    exact hfront.append (hname.append hrest)

theorem Clause.dropsTables {c : Clause} (g : Text) {s : List Lexeme} (hs : NoDot s) :
    DropsTables (c.lexemes g) s ((c.mapSubject Subject.unqualified).lexemes g) := by
  match c with
  | .compare left before relation behind right =>
    have hrest : ∀ l ∈ ⟨before, relation.token⟩ :: spaced behind right.tokens,
        l.is .dot = false := by
      intro l hl
      rcases List.mem_cons.mp hl with rfl | hl
      · exact relation.no_dot before
      · exact Item.no_dot hl
    have hright := dropsTables_of_still (still_qualified hrest hs)
    have hnext : NoDot (⟨before, relation.token⟩ :: (spaced behind right.tokens ++ s)) := by
      intro l hl
      cases hl
      exact relation.no_dot before
    cases left with
    | subject x => exact (x.dropsTables g hnext).append hright
    | item i =>
      have hleft := dropsTables_of_still (still_qualified (fun l => i.no_dot (g := g)) hnext)
      exact hleft.append hright
  | .member x negation membership beforeOpen first rest =>
    have hrest : ∀ l ∈ negation.toList.map Spelling.lexeme ++
        membership.lexeme :: ⟨beforeOpen, opening⟩ :: entries first rest, l.is .dot = false :=
      fun l => no_dot_member
    have hlist := dropsTables_of_still (still_qualified hrest hs)
    refine (x.dropsTables g ?_).append hlist
    intro l hl
    cases negation <;> cases hl <;> rfl

theorem carries_dropsTables :
    Carries DropsTables id (fun c => .clause (c.mapSubject Subject.unqualified)) Clause.Formed := by
  have sign {t : Token} (ht : t.kind ≠ .word) (g : Text) (s : List Lexeme) :
      DropsTables [⟨g, t⟩] s [⟨g, t⟩] := by
    refine dropsTables_of_still (still_cons.mpr ⟨fun back => ?_, still_nil⟩)
    cases h : qualified back (⟨g, t⟩ :: ([] ++ s)) with
    | none => rfl
    | some hit =>
      obtain ⟨table, d, c, he, -, hw, -⟩ := qualified_eq_some.mp h
      rw [← (List.cons.inj he).1] at hw
      exact absurd (by simpa [Lexeme.is] using hw) ht
  refine ⟨fun hu hv => hu.append hv, ?_, ?_, ?_, ?_⟩
  · intro g s _
    exact sign (by decide) g s
  · intro g s _
    exact sign (by decide) g s
  · intro j w s _ _ hs
    obtain ⟨l, ls, rfl, -, -, hi⟩ := hs
    apply dropsTables_of_still
    apply still_qualified
    · simp [Lexeme.is, word]
    · intro a ha
      cases ha
      simp only [isInner, Bool.or_eq_false_iff] at hi
      exact hi.1.1
  · intro c g s _ _ hs
    exact c.dropsTables g hs.no_dot

/-- The first pass drops the table names of a rule and nothing else. -/
theorem dropQualifiers_text {r : Rule k} (hr : r.Formed Clause.Formed) {lead tail : Text}
    (hlead : IsGap lead) (htail : IsGap tail) :
    dropQualifiers (r.text lead tail) =
      .ok ((r.rebuild id fun c => .clause (c.mapSubject Subject.unqualified)).text lead tail) := by
  have hs : scan (r.text lead tail) = .ok ⟨r.lexemes lead, tail⟩ :=
    scan_eq_ok_iff.mpr ⟨rfl, r.fit hr hlead htail, htail⟩
  have hturn := carries_dropsTables.rule (fun _ h => h) hr hlead .nil
  rw [dropQualifiers, hs]
  simp only [Except.map, Scan.text, Rule.text, Pattern.replace, hturn.render]

end Language

end WhereFilter
