import WhereFilter.Proofs.Language.Phrases
import WhereFilter.Proofs.Language.Translation

namespace WhereFilter

namespace Language

open Reading (Rank unspaced)

/-- A column that stands in no call, compared with numbers and literals. -/
structure Clause.Flat (c : Clause) : Prop where
  formed : c.Formed
  in_rules : c.InRules
  uncalled : ∃ x, c.subject? = some x ∧ x.call = none
  valued : c.ForItems Item.Valued

theorem Clause.ForItems.mono {P Q : Item → Prop} (h : ∀ i, P i → Q i) {c : Clause}
    (hc : c.ForItems P) : c.ForItems Q := by
  match c with
  | .compare (.subject _) _ _ _ _ => exact h _ hc
  | .compare (.item _) _ _ _ _ => exact ⟨h _ hc.1, h _ hc.2⟩
  | .member _ _ _ _ _ _ => exact fun e he => h _ (hc e he)

theorem Item.Valued.bound {i : Item} (hi : i.Valued) (b : Bindings) : i.Bound b := by
  match i with
  | .number _ _ | .literal _ | .truth _ => trivial

theorem Item.Valued.filled {i : Item} (hi : i.Valued) (b : Bindings) : i.filled b = i := by
  match i with
  | .number _ _ | .literal _ | .truth _ => rfl

theorem Clause.Flat.admitted {c : Clause} (hc : c.Flat) (b : Bindings) : c.Admitted b := by
  refine ⟨hc.formed, hc.in_rules, hc.valued.mono fun _ h => h.bound b, ?_⟩
  intro quoted p before relation behind right he
  obtain ⟨x, hx, -⟩ := hc.uncalled
  rw [he] at hx
  cases hx

/-- What the passes keep of the clauses of flat rules. -/
structure Clause.Kept (c : Clause) : Prop where
  subject : c.subject?.isSome = true
  valued : c.ForItems Item.Valued
  supported : c.Supported

namespace Clause.Kept

theorem mapSubject {f : Subject → Subject} (hf : ∀ x, (f x).column = x.column) {c : Clause}
    (hc : c.Kept) : (c.mapSubject f).Kept := by
  match c, hc with
  | .compare (.item _) _ _ _ _, hc => exact hc
  | .compare (.subject x) _ _ _ _, hc | .member x _ _ _ _ _, hc =>
    refine ⟨rfl, hc.valued, fun y hy => ?_, hc.supported.items⟩
    cases hy
    rw [hf]
    exact hc.supported.column x rfl

theorem mapItems_filled {c : Clause} (hc : c.Kept) (b : Bindings) :
    c.mapItems (Item.filled b) = c := by
  match c, hc with
  | .compare (.item _) _ _ _ _, hc => cases hc.subject
  | .compare (.subject _) _ _ _ _, hc => simp only [mapItems, Item.Valued.filled hc.valued]
  | .member _ _ _ _ first rest, hc =>
    have hitem (e : Entry) (he : e ∈ first :: rest) : { e with item := e.item.filled b } = e := by
      rw [(hc.valued e he).filled b]
    have hrest : rest.map (fun e => { e with item := e.item.filled b }) = rest :=
      (List.map_congr_left fun e he => hitem e (List.mem_cons_of_mem _ he)).trans
        (List.map_id rest)
    rw [Clause.mapItems, hrest, hitem first (by simp)]

theorem decided {c : Clause} (hc : c.Kept) : c.decided = c := by
  match c, hc with
  | .compare (.item _) _ _ _ _, hc => cases hc.subject
  | .compare (.subject _) _ _ _ _, _ | .member _ _ _ _ _ _, _ => rfl

theorem worded {c : Clause} (hc : c.Kept) (spell : Relation → Option Relation) :
    (c.worded spell).Kept := by
  match c, hc with
  | .compare (.item _) _ _ _ _, hc => cases hc.subject
  | .member _ _ _ _ _ _, hc => exact hc
  | .compare (.subject x) before relation behind right, hc =>
    cases h : spell relation with
    | none => simpa only [Clause.worded, h] using hc
    | some spelled =>
      simp only [Clause.worded, h]
      exact ⟨rfl, hc.valued, hc.supported.column, hc.supported.items⟩

theorem validated {c : Clause} (hc : c.Kept) : c.validated.Kept := by
  match c, hc with
  | .compare (.item _) _ _ _ _, hc => cases hc.subject
  | .member _ _ _ _ _ _, hc => exact hc
  | .compare (.subject x) before relation behind right, hc =>
    have keep {behind' : Text} {right' : Item} (hv : right'.Valued) (hs : right'.Supported) :
        (Clause.compare (.subject x) before relation behind' right').Kept :=
      ⟨rfl, hv, hc.supported.column, hs⟩
    cases hs : relation.isSpelled with
    | false => simpa only [Clause.validated, hs] using hc
    | true =>
      cases hl : right.letter? with
      | none => simpa only [Clause.validated, hs, hl] using hc
      | some holds =>
        simp only [Clause.validated, hs, hl]
        exact keep trivial trivial

theorem compared {x : Subject} {i : Item} (hx : ¬IsPhrase x.column) (hv : i.Valued)
    (hi : i.Supported) (r : Relation) : (x.compared r i).Kept := by
  refine ⟨rfl, hv, fun y hy => ?_, hi⟩
  cases hy
  exact hx

theorem expanded {c : Clause} (hc : c.Kept) : c.expanded.Formed Clause.Kept := by
  match c, hc with
  | .compare _ _ _ _ _, hc => exact hc
  | .member x negation _ _ first rest, hc =>
    refine Clause.formed_expanded fun r e he => ?_
    exact compared (hc.supported.column x rfl) (hc.valued e he) (hc.supported.items e he) r

theorem respaced {c : Clause} (hc : c.Kept) : c.respaced.Kept := by
  match c, hc with
  | .compare (.item _) _ _ _ _, hc => cases hc.subject
  | .member _ _ _ _ _ _, hc => exact hc
  | .compare (.subject _) _ _ _ _, hc =>
    exact ⟨rfl, hc.valued, hc.supported.column, hc.supported.items⟩

end Clause.Kept

theorem Clause.Simple.expanded_eq {c : Clause} (hc : c.Simple) : c.expanded = .clause c := by
  match c, hc with
  | .compare _ _ _ _ _, _ => rfl
  | .member _ _ _ _ _ _, hc => cases hc.no_list

theorem Clause.mapSubject_eq_self {f : Subject → Subject} {c : Clause}
    (h : ∀ x, c.subject? = some x → f x = x) : c.mapSubject f = c := by
  match c with
  | .compare (.item _) _ _ _ _ => rfl
  | .compare (.subject x) _ _ _ _ | .member x _ _ _ _ _ => simp only [mapSubject, h x rfl]

/-! ### No markers -/

theorem hasMarker_cons_of_not_number {l : Lexeme} (h : l.is .number = false) (ls : List Lexeme) :
    hasMarker (l :: ls) = hasMarker ls := by
  have hnone : marker? ((l :: ls).take 3) = none := by
    match ls with
    | [] | [_] => rfl
    | _ :: _ :: _ => simp [marker?, h]
  rw [hasMarker, hnone]
  rfl

theorem Ends.hasMarker {s : List Lexeme} (h : Ends s) (l : Lexeme) :
    hasMarker (l :: s) = hasMarker s := by
  have hnone : marker? ((l :: s).take 3) = none := by
    cases h with
    | nil => rfl
    | @closing g ls hg =>
      match ls with
      | [] => rfl
      | _ :: _ => simp [marker?, Lexeme.isWord, Token.isWord, Language.closing]
    | @joint j w ls hj hw =>
      have heq : (⟨j.before, word j.text⟩ : Lexeme).isWord ['e', 'q'] = false := by
        rw [Lexeme.isWord, hj.spells.isWord]
        rcases hw with rfl | rfl <;> rfl
      match ls with
      | [] => rfl
      | _ :: _ => simp [marker?, heq]
  rw [WhereFilter.hasMarker, hnone]
  rfl

/-- No marker starts in a comparison of a column. -/
theorem carries_hasMarker :
    Carries (fun u s _ => hasMarker (u ++ s) = hasMarker s) id .clause
      fun c => c.Simple ∧ c.subject?.isSome = true := by
  refine ⟨?_, ?_, ?_, ?_, ?_⟩
  · intro u v s u' v' hu hv
    rw [List.append_assoc, hu, hv]
  · exact fun _ => hasMarker_cons_of_not_number rfl _
  · exact fun _ => hasMarker_cons_of_not_number rfl _
  · exact fun _ _ _ => hasMarker_cons_of_not_number rfl _
  · intro c g s hc hg hs
    obtain ⟨hsimple, hsubject⟩ := hc
    cases c with
    | member => cases hsimple.no_list
    | compare left before relation behind right =>
      cases left with
      | item i => cases hsubject
      | subject x =>
        have hbare := hsimple.settled.bare x rfl
        have hsign : (⟨before, relation.token⟩ : Lexeme).is .number = false := by
          cases relation <;> rfl
        rw [Clause.lexemes, Side.lexemes, x.lexemes_of_bare hbare.1 hbare.2, List.cons_append,
          List.nil_append, List.cons_append, hasMarker_cons_of_not_number rfl, List.cons_append,
          hasMarker_cons_of_not_number hsign]
        have hvalued := hsimple.right.2
        cases right with
        | placeholder quoted p => cases hvalued
        | literal contents => exact hs.hasMarker _
        | truth holds => exact hs.hasMarker _
        | number negative n =>
          cases negative with
          | true => exact (hasMarker_cons_of_not_number rfl _).trans (hs.hasMarker _)
          | false => exact hs.hasMarker _

namespace Rule

theorem hasMarker_lexemes {r : Rule k}
    (hr : r.Formed fun c => c.Simple ∧ c.subject?.isSome = true) {g : Text} (hg : IsGap g) :
    hasMarker (r.lexemes g) = false := by
  have h := carries_hasMarker.rule (fun _ h => h.1.settled.formed) hr hg .nil
  rw [List.append_nil] at h
  exact h

/-! ### How the groups of a rule stand -/

/-- What stands in parentheses, outermost ones, is as `P` asks. -/
def Groups (P : Rule .whole → Prop) : Rule k → Prop
  | .clause _ => True
  | .group _ r _ => P r
  | .part r | .whole r => r.Groups P
  | .both l _ r | .either l _ r => l.Groups P ∧ r.Groups P

/-- No parentheses stand around clauses. -/
def Open (r : Rule k) : Prop :=
  r.Groups fun _ => False

/-- A group that keeps its parentheses. -/
structure Bundle (r : Rule .whole) : Prop where
  flat : r.Open
  no_single : r.single? = none

theorem Groups.rebuild {P Q : Rule .whole → Prop} {spell : Text → Text} {f : Clause → Rule .piece}
    {r : Rule k} (hr : r.Groups P) (hP : ∀ q, P q → Q (q.rebuild spell f))
    (hf : ∀ c, (f c).Groups Q) : (r.rebuild spell f).Groups Q := by
  induction r with
  | clause c => exact hf c
  | group inside r before _ => exact hP r hr
  | part r ih => exact ih hr
  | whole r ih => exact ih hr
  | both l j r ihl ihr => exact ⟨ihl hr.1, ihr hr.2⟩
  | either l j r ihl ihr => exact ⟨ihl hr.1, ihr hr.2⟩

theorem Open.rebuild {spell : Text → Text} {f : Clause → Clause} {r : Rule k} (hr : r.Open) :
    (r.rebuild spell fun c => .clause (f c)).Open :=
  Groups.rebuild hr (fun _ h => h) fun _ => trivial

theorem open_allOf (c : Clause) (cs : List Clause) : (allOf c cs).Open := by
  induction cs generalizing c with
  | nil => trivial
  | cons d ds ih => exact ⟨trivial, ih d⟩

theorem open_oneOf (c : Clause) (cs : List Clause) : (oneOf c cs).Open := by
  induction cs generalizing c with
  | nil => trivial
  | cons d ds ih => exact ⟨trivial, ih d⟩

theorem groups_expanded (c : Clause) : c.expanded.Groups Open := by
  match c with
  | .compare _ _ _ _ _ => trivial
  | .member _ none _ _ _ _ => exact open_oneOf _ _
  | .member _ (some _) _ _ _ _ => exact open_allOf _ _

/-- Parentheses stand around lists only. -/
theorem groups_prepared {r : Rule k} (hr : r.Open) (b : Bindings) :
    (r.prepared b).Groups Open := by
  have hkeep {spell : Text → Text} {f : Clause → Clause} {k : Rank} {r : Rule k}
      (hr : r.Groups Open) : (r.rebuild spell fun c => .clause (f c)).Groups Open :=
    hr.rebuild (fun _ h => h.rebuild) fun _ => trivial
  have hlists : (((((r.rebuild id fun c => .clause (c.mapSubject Subject.unqualified)).rebuild id
      fun c => .clause (c.mapSubject Subject.uncalled)).rebuild id
      fun c => .clause (c.mapItems (Item.filled b))).rebuild id
      fun c => .clause c.decided).rebuild id Clause.expanded).Groups Open :=
    Groups.rebuild hr.rebuild.rebuild.rebuild.rebuild (fun _ h => h.elim) groups_expanded
  exact hkeep (hkeep (f := id) (hkeep (hkeep hlists)))

theorem unwrapped_of_groups {P : Rule .whole → Prop} (hP : ∀ q, P q → q.single? = none)
    (hin : ∀ q gs, P q → q.unwrapped gs = (q, gs)) {r : Rule k} (hr : r.Groups P)
    (gs : List Text) : r.unwrapped gs = (r, gs) := by
  induction r generalizing gs with
  | clause c => rfl
  | group inside r before _ => simp [unwrapped, hP r hr, hin r (before :: gs) hr]
  | part r ih => simp [unwrapped, ih hr gs]
  | whole r ih => simp [unwrapped, ih hr gs]
  | both l j r ihl ihr => simp [unwrapped, ihl hr.1 [], ihr hr.2 gs]
  | either l j r ihl ihr => simp [unwrapped, ihl hr.1 [], ihr hr.2 gs]

theorem Open.unwrapped {r : Rule k} (hr : r.Open) (gs : List Text) : r.unwrapped gs = (r, gs) :=
  unwrapped_of_groups (fun _ h => h.elim) (fun _ _ h => h.elim) hr gs

theorem unwrapped_of_bundles {r : Rule k} (hr : r.Groups Bundle) (gs : List Text) :
    r.unwrapped gs = (r, gs) :=
  unwrapped_of_groups (fun _ h => h.no_single) (fun _ gs h => h.flat.unwrapped gs) hr gs

/-- The eleventh pass leaves no parentheses around single `eq` clauses. -/
theorem bundles_unwrapped {r : Rule k} (hr : r.Groups Open) (gs : List Text) :
    (r.unwrapped gs).1.Groups Bundle := by
  induction r generalizing gs with
  | clause c => trivial
  | group inside r before _ =>
    have hopen : r.Open := hr
    cases hs : r.single? with
    | some c => simp only [Rule.unwrapped, hs, Groups]
    | none =>
      simp only [Rule.unwrapped, hs, hopen.unwrapped (before :: gs), Groups]
      exact ⟨hopen, hs⟩
  | part r ih => exact ih hr gs
  | whole r ih => exact ih hr gs
  | both l j r ihl ihr => exact ⟨ihl hr.1 [], ihr hr.2 gs⟩
  | either l j r ihl ihr => exact ⟨ihl hr.1 [], ihr hr.2 gs⟩

theorem Groups.respaced {P : Rule .whole → Prop} (hP : ∀ q, P q → P q.respaced) {r : Rule k}
    (hr : r.Groups P) : r.respaced.Groups P := by
  induction r with
  | clause c => trivial
  | group inside r before _ => exact hP r hr
  | part r ih => exact ih hr
  | whole r ih => exact ih hr
  | both l j r ihl ihr => exact ⟨ihl hr.1, ihr hr.2⟩
  | either l j r ihl ihr => exact ⟨ihl hr.1, ihr hr.2⟩

theorem only?_respaced (r : Rule k) : r.respaced.only? = r.only?.map Clause.respaced := by
  induction r with
  | clause c => rfl
  | group inside r before ih => rfl
  | part r ih => exact ih
  | whole r ih => exact ih
  | both l j r ihl ihr => rfl
  | either l j r ihl ihr => rfl

theorem Bundle.respaced {r : Rule .whole} (hr : r.Bundle) : r.respaced.Bundle := by
  have hrelation (c : Clause) : c.respaced.relation? = c.relation? := by
    cases c <;> rfl
  refine ⟨Groups.respaced (fun _ h => h.elim) hr.flat, ?_⟩
  have hnone := hr.no_single
  simp only [single?, Option.filter_eq_none_iff] at hnone ⊢
  intro c hc
  rw [only?_respaced] at hc
  obtain ⟨d, hd, rfl⟩ := Option.map_eq_some_iff.mp hc
  rw [hrelation]
  exact hnone d hd

/-! ### Rules that no pass changes -/

/-- The connectives are in lower case. -/
def Lowered : Rule k → Prop
  | .clause _ => True
  | .group _ r _ => r.Lowered
  | .part r | .whole r => r.Lowered
  | .both l j r | .either l j r => l.Lowered ∧ Text.lower j.text = j.text ∧ r.Lowered

theorem lowered_rebuild_lower (r : Rule k) : (r.rebuild Text.lower .clause).Lowered := by
  induction r with
  | clause c => trivial
  | group inside r before ih => exact ih
  | part r ih => exact ih
  | whole r ih => exact ih
  | both l j r ihl ihr => exact ⟨ihl, lower_lower j.text, ihr⟩
  | either l j r ihl ihr => exact ⟨ihl, lower_lower j.text, ihr⟩

theorem Lowered.rebuild {f : Clause → Clause} {r : Rule k} (hr : r.Lowered) :
    (r.rebuild id fun c => .clause (f c)).Lowered := by
  induction r with
  | clause c => trivial
  | group inside r before ih => exact ih hr
  | part r ih => exact ih hr
  | whole r ih => exact ih hr
  | both l j r ihl ihr => exact ⟨ihl hr.1, hr.2.1, ihr hr.2.2⟩
  | either l j r ihl ihr => exact ⟨ihl hr.1, hr.2.1, ihr hr.2.2⟩

theorem Lowered.unwrapped {r : Rule k} (hr : r.Lowered) (gs : List Text) :
    (r.unwrapped gs).1.Lowered := by
  induction r generalizing gs with
  | clause c => trivial
  | group inside r before ih =>
    simp only [Rule.unwrapped]
    split
    · trivial
    · exact ih hr (before :: gs)
  | part r ih => exact ih hr gs
  | whole r ih => exact ih hr gs
  | both l j r ihl ihr => exact ⟨ihl hr.1 [], hr.2.1, ihr hr.2.2 gs⟩
  | either l j r ihl ihr => exact ⟨ihl hr.1 [], hr.2.1, ihr hr.2.2 gs⟩

theorem Lowered.respaced {r : Rule k} (hr : r.Lowered) : r.respaced.Lowered := by
  induction r with
  | clause c => trivial
  | group inside r before ih => exact ih hr
  | part r ih => exact ih hr
  | whole r ih => exact ih hr
  | both l j r ihl ihr => exact ⟨ihl hr.1, hr.2.1, ihr hr.2.2⟩
  | either l j r ihl ihr => exact ⟨ihl hr.1, hr.2.1, ihr hr.2.2⟩

theorem lowered_prepared (b : Bindings) (r : Rule k) : (r.prepared b).Lowered :=
  (lowered_rebuild_lower _).rebuild

theorem rebuild_eq_self {P : Clause → Prop} {f : Clause → Rule .piece}
    (hf : ∀ c, P c → f c = .clause c) {r : Rule k} (hr : r.Formed P) : r.rebuild id f = r := by
  induction r with
  | clause c => exact hf c hr
  | group inside r before ih => simp only [Rule.rebuild, ih hr.2.1]
  | part r ih => simp only [Rule.rebuild, ih hr]
  | whole r ih => simp only [Rule.rebuild, ih hr]
  | both l j r ihl ihr => simp only [Rule.rebuild, ihl hr.1, ihr hr.2.2, id]
  | either l j r ihl ihr => simp only [Rule.rebuild, ihl hr.1, ihr hr.2.2, id]

theorem rebuild_lower_eq_self {r : Rule k} (hr : r.Lowered) :
    r.rebuild Text.lower .clause = r := by
  induction r with
  | clause c => rfl
  | group inside r before ih => simp only [Rule.rebuild, ih hr]
  | part r ih => simp only [Rule.rebuild, ih hr]
  | whole r ih => simp only [Rule.rebuild, ih hr]
  | both l j r ihl ihr => simp only [Rule.rebuild, ihl hr.1, ihr hr.2.2, hr.2.1]
  | either l j r ihl ihr => simp only [Rule.rebuild, ihl hr.1, ihr hr.2.2, hr.2.1]

theorem respaced_respaced (r : Rule k) : r.respaced.respaced = r.respaced := by
  have hclause (c : Clause) : c.respaced.respaced = c.respaced := by
    cases c <;> simp only [Clause.respaced, squeeze_squeeze]
  induction r with
  | clause c => simp only [respaced, hclause]
  | group inside r before ih => simp only [respaced, squeeze_squeeze, ih]
  | part r ih => simp only [respaced, ih]
  | whole r ih => simp only [respaced, ih]
  | both l j r ihl ihr => simp only [respaced, squeeze_squeeze, ihl, ihr]
  | either l j r ihl ihr => simp only [respaced, squeeze_squeeze, ihl, ihr]

/-- A rule as the passes leave flat ones. -/
structure Final (r : Rule k) : Prop where
  formed : r.Formed fun c => c.Ready ∧ c.Kept
  bundled : r.Groups Bundle
  lowered : r.Lowered
  spaced : r.respaced = r

theorem foldMarkers_of_none {r : Rule k} (hr : r.Formed Clause.Formed) {lead tail : Text}
    (hlead : IsGap lead) (htail : IsGap tail) (h : WhereFilter.hasMarker (r.lexemes lead) = false) :
    foldMarkers (r.text lead tail) = .ok (r.text lead tail) := by
  have hs : scan (r.text lead tail) = .ok ⟨r.lexemes lead, tail⟩ :=
    scan_eq_ok_iff.mpr ⟨rfl, r.fit hr hlead htail, htail⟩
  simp only [foldMarkers, hs, h, Bool.false_eq_true, if_false]

theorem runAll_of_fixed {b : Bindings} {p : Pass} {s : Text} (h : p.run b s = .ok s)
    (ps : List Pass) : Pass.runAll b (p :: ps) s = Pass.runAll b ps s := by
  rw [Pass.runAll, h]

section

variable {r : Rule k} (hr : r.Final)

include hr

theorem Final.spelled : r.Formed Clause.Spelled := hr.formed.mono fun _ h => h.1.spelled

theorem Final.simple : r.Formed Clause.Simple := hr.spelled.mono fun _ h => h.simple

theorem Final.settled : r.Formed Clause.Settled := hr.simple.mono fun _ h => h.settled

theorem Final.wellFormed : r.Formed Clause.Formed := hr.settled.mono fun _ h => h.formed

/-- A change of table names or calls finds none. -/
theorem Final.mapSubject {f : Subject → Subject}
    (hf : ∀ x, x.table = none → x.call = none → f x = x) :
    (r.rebuild id fun c => .clause (c.mapSubject f)) = r := by
  refine rebuild_eq_self (fun c hc => congrArg Rule.clause (c.mapSubject_eq_self ?_)) hr.settled
  exact fun x hx => hf x (hc.bare x hx).1 (hc.bare x hx).2

theorem Final.dropQualifiers : dropQualifiers r.trimmed = .ok r.trimmed := by
  have h := dropQualifiers_text hr.wellFormed isGap_nil isGap_nil
  rwa [hr.mapSubject fun x ht _ => by simp [Subject.unqualified, ← ht]] at h

theorem Final.dropCoalesce : dropCoalesce r.trimmed = r.trimmed := by
  have huntabled : r.Formed fun c => c.Formed ∧ c.Untabled :=
    hr.settled.mono fun _ h => ⟨h.formed, fun x hx => (h.bare x hx).1⟩
  have h := dropCoalesce_text huntabled isGap_nil isGap_nil
  rwa [hr.mapSubject fun x _ hc => by simp [Subject.uncalled, ← hc]] at h

theorem Final.fillPlaceholders (b : Bindings) :
    fillPlaceholders b r.trimmed = .ok r.trimmed := by
  have hbound : r.Formed fun c => c.Formed ∧ c.Bare ∧ c.ForItems (Item.Bound b) :=
    hr.formed.mono fun _ h => ⟨h.1.spelled.simple.settled.formed,
      h.1.spelled.simple.settled.bare, h.2.valued.mono fun _ h => h.bound b⟩
  have h := fillPlaceholders_text hbound isGap_nil isGap_nil
  rwa [rebuild_eq_self (fun c hc => congrArg Rule.clause (hc.2.mapItems_filled b))
    hr.formed] at h

theorem Final.foldComparisons : YesNo.foldComparisons r.trimmed = r.trimmed := by
  have hlettered : r.Formed fun c => c.Settled ∧ c.Lettered := by
    refine hr.formed.mono fun c h => ⟨h.1.spelled.simple.settled, ?_⟩
    intro i before relation behind right he
    have hsubject := h.2.subject
    rw [he] at hsubject
    cases hsubject
  have h := foldComparisons_text hlettered isGap_nil isGap_nil
  rwa [rebuild_eq_self (fun c hc => congrArg Rule.clause hc.2.decided) hr.formed] at h

theorem Final.expandLists : expandLists r.trimmed = .ok r.trimmed := by
  have h := expandLists_text hr.settled isGap_nil isGap_nil
  rwa [rebuild_eq_self (fun c hc => hc.expanded_eq) hr.simple] at h

theorem Final.respell_unequal : respell unequalSpelling r.trimmed = .ok r.trimmed := by
  have h := respell_text carries_unequal (fun _ h => h.settled.formed) hr.simple isGap_nil
    isGap_nil
  rwa [rebuild_eq_self (fun c hc => congrArg Rule.clause (c.worded_eq hc.no_unequal))
    hr.spelled] at h

theorem Final.respell_equal : respell equalSpelling r.trimmed = .ok r.trimmed := by
  have h := respell_text carries_equal (fun _ h => h.settled.formed) hr.simple isGap_nil isGap_nil
  rwa [rebuild_eq_self (fun c hc => congrArg Rule.clause (c.worded_eq hc.no_equal))
    hr.spelled] at h

theorem Final.respell_connective : respell connectiveSpelling r.trimmed = .ok r.trimmed := by
  have h := respell_text (f := id) carries_connectives (fun _ h => h.settled.formed) hr.simple
    isGap_nil isGap_nil
  exact h.trans (congrArg (fun q => Except.ok q.trimmed) (rebuild_lower_eq_self hr.lowered))

theorem Final.useTruthValues : YesNo.useTruthValues r.trimmed = r.trimmed := by
  have h := useTruthValues_text hr.simple isGap_nil isGap_nil
  rwa [rebuild_eq_self (fun c hc => congrArg Rule.clause (c.validated_eq hc.1.no_letter))
    hr.formed] at h

theorem Final.foldMarkers : foldMarkers r.trimmed = .ok r.trimmed :=
  foldMarkers_of_none hr.wellFormed isGap_nil isGap_nil
    (hasMarker_lexemes (hr.formed.mono fun _ h => ⟨h.1.spelled.simple, h.2.subject⟩) isGap_nil)

theorem Final.unwrapClauses : unwrapClauses r.trimmed = r.trimmed := by
  have h := unwrapClauses_text hr.simple isGap_nil isGap_nil
  rwa [unwrapped_of_bundles hr.bundled] at h

theorem Final.respace : Text.respace r.trimmed = r.trimmed := by
  have h := respace_text hr.simple isGap_nil isGap_nil
  rwa [hr.spaced] at h

/-- No pass changes the text of such a rule. -/
theorem Final.runAll (b : Bindings) : Pass.runAll b Pass.all r.trimmed = .ok r.trimmed := by
  rw [Pass.all, runAll_of_fixed (run_scanning hr.dropQualifiers),
    runAll_of_fixed (run_plain hr.dropCoalesce),
    runAll_of_fixed (run_scanning (hr.fillPlaceholders b)),
    runAll_of_fixed (run_plain hr.foldComparisons), runAll_of_fixed (run_scanning hr.expandLists),
    runAll_of_fixed (run_scanning hr.respell_unequal),
    runAll_of_fixed (run_scanning hr.respell_equal),
    runAll_of_fixed (run_scanning hr.respell_connective),
    runAll_of_fixed (run_plain hr.useTruthValues), runAll_of_fixed hr.foldMarkers,
    runAll_of_fixed (run_plain hr.unwrapClauses), runAll_of_fixed (run_plain hr.respace),
    Pass.runAll]

end

theorem Formed.and {P Q : Clause → Prop} {r : Rule k} (hp : r.Formed P) (hq : r.Formed Q) :
    r.Formed fun c => P c ∧ Q c := by
  induction r with
  | clause c => exact ⟨hp, hq⟩
  | group inside r before ih => exact ⟨hp.1, ih hp.2.1 hq.2.1, hp.2.2⟩
  | part r ih => exact ih hp hq
  | whole r ih => exact ih hp hq
  | both l j r ihl ihr => exact ⟨ihl hp.1 hq.1, hp.2.1, ihr hp.2.2 hq.2.2⟩
  | either l j r ihl ihr => exact ⟨ihl hp.1 hq.1, hp.2.1, ihr hp.2.2 hq.2.2⟩

theorem kept_prepared {r : Rule k} (hr : r.Formed Clause.Kept) (b : Bindings) :
    (r.prepared b).Formed Clause.Kept := by
  have keep {f : Clause → Clause} (hf : ∀ c, c.Kept → (f c).Kept) {r : Rule k}
      (hr : r.Formed Clause.Kept) : (r.rebuild id fun c => .clause (f c)).Formed Clause.Kept :=
    hr.rebuild (fun _ => rfl) hf
  have subject {f : Subject → Subject} (hf : ∀ x, (f x).column = x.column) {r : Rule k}
      (hr : r.Formed Clause.Kept) :
      (r.rebuild id fun c => .clause (c.mapSubject f)).Formed Clause.Kept :=
    keep (fun _ hc => hc.mapSubject hf) hr
  have hcolumns := subject (f := Subject.uncalled) (fun _ => rfl)
    (subject (f := Subject.unqualified) (fun _ => rfl) hr)
  have hdecided := keep (fun _ hc => hc.decided.symm ▸ hc)
    (keep (fun _ hc => (hc.mapItems_filled b).symm ▸ hc) hcolumns)
  have hlists : (Rule.rebuild id Clause.expanded _).Formed Clause.Kept :=
    hdecided.rebuild (fun _ => rfl) fun _ hc => hc.expanded
  have hwords := keep (fun _ hc => hc.worded Relation.equalWord)
    (keep (fun _ hc => hc.worded Relation.unequalWord) hlists)
  have hlower := hwords.rebuild (f := .clause) (Q := Clause.Kept) lower_lower fun _ hc => hc
  exact keep (fun _ hc => hc.validated) hlower

/-- The gate keeps phrases out of a flat rule. -/
theorem kept_of_supported {r : Rule k} (hr : r.Formed Clause.Flat) {lead tail : Text}
    (hlead : IsGap lead) (hgate : checkSupported (r.text lead tail) = .ok ()) :
    r.Formed Clause.Kept := by
  have hstart : (lead.getLast?.or none).any isWordChar = false := by
    by_cases hn : lead = []
    · rw [hn]
      rfl
    · exact not_wordChar_of_gap hlead hn none
  have hsilent := (Pattern.silent_append.mp (checkSupported_eq_ok_iff.mp hgate)).1
  have hsupported := supported_of_silent (fun c hc => ⟨hc.formed, hc.uncalled⟩) hr hlead
    hstart hsilent
  refine hsupported.mono fun c hc => ⟨?_, hc.1.valued, hc.2⟩
  obtain ⟨x, hx, -⟩ := hc.1.uncalled
  rw [hx]
  rfl

/-- The passes leave such a rule of a flat one. -/
theorem final_finished {b : Bindings} {r : Rule k}
    (hr : (r.prepared b).Formed fun c => c.Ready ∧ c.Kept) (hopen : r.Open) :
    (r.prepared b).finished.Final := by
  refine ⟨formed_respaced (fun c hc => ⟨hc.1.respaced, hc.2.respaced⟩)
    (formed_unwrapped hr (List.forall_mem_nil IsGap)), ?_, ?_, respaced_respaced _⟩
  · exact (bundles_unwrapped (groups_prepared hopen b) []).respaced fun _ h => h.respaced
  · exact ((lowered_prepared b r).unwrapped []).respaced

theorem Final.translate {r : Rule k} (hr : r.Final) (b : Bindings) :
    translate b r.trimmed = .ok r.trimmed := by
  have hsupported : checkSupported r.trimmed = .ok () :=
    checkSupported_text (hr.formed.mono fun _ h => ⟨h.1.spelled.simple, h.2.subject,
      h.2.supported⟩) isGap_nil isGap_nil
  have hbound : checkBound b r.trimmed = .ok () :=
    checkBound_text (hr.formed.mono fun _ h => ⟨h.1.spelled.simple.settled.formed,
      h.2.valued.mono fun _ hv => hv.bound b⟩) isGap_nil isGap_nil
  have hnonempty : r.trimmed.isEmpty = false := by
    simpa using trimmed_ne_nil (hr.formed.mono fun _ h => h.1)
  rw [WhereFilter.translate, hsupported, hbound, hr.runAll]
  show (if r.trimmed.isEmpty then _ else _) = _
  rw [hnonempty]
  rfl

end Rule

/-- Translation is idempotent on flat rules past the gate: they have filters, and a filter of
theirs is translated to itself, whatever the variables are bound to. -/
theorem translate_idempotent {r : Rule .whole} (hr : r.Formed Clause.Flat) (hopen : r.Open)
    {lead tail : Text} (hlead : IsGap lead) (htail : IsGap tail)
    (hgate : checkSupported (r.text lead tail) = .ok ()) (b : Bindings) :
    ∃ t, translate b (r.text lead tail) = .ok t ∧ ∀ b', translate b' t = .ok t := by
  have hadmitted : r.Formed (Clause.Admitted b) := hr.mono fun _ h => h.admitted b
  have hready := (Rule.prepared_spec hadmitted).1
  have hformed := hready.and (Rule.kept_prepared (r.kept_of_supported hr hlead hgate) b)
  have hfinal := Rule.final_finished hformed hopen
  have hmarkers : foldMarkers ((r.prepared b).text lead tail) =
      .ok ((r.prepared b).text lead tail) :=
    Rule.foldMarkers_of_none (hready.mono fun _ h => h.spelled.simple.settled.formed) hlead htail
      (Rule.hasMarker_lexemes (hformed.mono fun _ h => ⟨h.1.spelled.simple, h.2.subject⟩) hlead)
  have hnonempty : (r.prepared b).finished.trimmed.isEmpty = false := by
    simpa using Rule.trimmed_ne_nil (hfinal.formed.mono fun _ h => h.1)
  refine ⟨(r.prepared b).finished.trimmed, ?_, hfinal.translate⟩
  rw [Rule.translate_eq hadmitted hlead htail hgate, hmarkers]
  simp only [Except.bind, Rule.finished_text hready hlead htail, hnonempty, Bool.false_eq_true,
    if_false]

/-- `T.A NOT IN (1, 'x') OR B = 'Y'` -/
def listRule : Rule .whole :=
  .either
    (.part (.clause (.member ⟨some "T".toList, "A".toList, none⟩ (some ⟨[' '], "NOT".toList⟩)
      ⟨[' '], "IN".toList⟩ [' '] ⟨[], .number false "1".toList, []⟩
      [⟨[' '], .literal "x".toList, []⟩])))
    ⟨[' '], "OR".toList, [' ']⟩
    (.whole (.part (.clause (.compare (.subject ⟨none, "B".toList, none⟩) [' '] .equals [' ']
      (.literal "Y".toList)))))

theorem listRule_flat : listRule.Formed Clause.Flat := by
  have hplain {t : Text} (ht : t.all isPlainChar = true) : Plain t := List.all_eq_true.mp ht
  have uncalled {t : Option Text} {n : Text} (ht : ∀ s, t = some s → IsName s) (hn : IsName n) :
      (⟨t, n, none⟩ : Subject).Formed := ⟨ht, hn, fun k hk => nomatch hk⟩
  have hA : IsName "A".toList := isName_cons (c := 'A') (t := []) rfl rfl rfl
  have hB : IsName "B".toList := isName_cons (c := 'B') (t := []) rfl rfl rfl
  refine ⟨⟨⟨uncalled (fun t ht => ?_) hA, fun n hn => ?_, ⟨isGap_space, by simp, rfl⟩,
      isGap_space, fun e he => ?_⟩, fun e he => ?_, ⟨_, rfl, rfl⟩, fun e he => ?_⟩,
    ⟨isGap_space, by simp, rfl, isGap_space, by simp⟩,
    ⟨⟨uncalled (fun t ht => nomatch ht) hB, isGap_space, isGap_space, hplain rfl,
      fun h => nomatch h⟩, ⟨rfl, trivial⟩, ⟨_, rfl, rfl⟩, trivial⟩⟩
  · cases ht
    exact isName_cons (c := 'T') (t := []) rfl rfl rfl
  · cases hn
    exact ⟨isGap_space, by simp, rfl⟩
  all_goals
    rcases List.mem_cons.mp he with rfl | he
    · first | trivial | exact ⟨isGap_nil, numeral_digit rfl, isGap_nil⟩
    · rw [List.mem_singleton.mp he]
      first | trivial | exact ⟨isGap_space, hplain rfl, isGap_nil⟩

/-- A list with a table name, and a letter. -/
theorem translate_idempotent_of_listRule :
    translate .empty "T.A NOT IN (1, 'x') OR B = 'Y'".toList =
        .ok "(A neq 1 and A neq 'x') or B eq true".toList ∧
      ∀ b, translate b "(A neq 1 and A neq 'x') or B eq true".toList =
        .ok "(A neq 1 and A neq 'x') or B eq true".toList := by
  have hgate : checkSupported (listRule.text [] []) = .ok () := by cbv
  have hrun : translate .empty (listRule.text [] []) =
      .ok "(A neq 1 and A neq 'x') or B eq true".toList := by cbv
  obtain ⟨t, ht, hagain⟩ := translate_idempotent listRule_flat ⟨trivial, trivial⟩ isGap_nil
    isGap_nil hgate .empty
  rw [hrun] at ht
  cases ht
  exact ⟨hrun, hagain⟩

end Language

end WhereFilter
