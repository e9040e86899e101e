import WhereFilter.Proofs.Language.Truths
import WhereFilter.Proofs.Reading.Meaning

namespace WhereFilter

namespace Language

open Reading (Rank Parses ofLexemes)

/-- Lexemes that no connective and no parenthesis cuts. -/
def isUncut (l : Lexeme) : Bool :=
  !(l.is .parenLeft || l.is .parenRight || l.isWord "or".toList || l.isWord "and".toList)

theorem parts_of_uncut {w : Text} (hw : w = "or".toList ∨ w = "and".toList) {ls : List Lexeme}
    (h : ∀ l ∈ ls, isUncut l = true) (d : Nat) : parts w d ls = [ls] := by
  induction ls with
  | nil => rfl
  | cons l ls ih =>
    have hl := h l (by simp)
    simp only [isUncut, Bool.not_eq_true', Bool.or_eq_false_iff] at hl
    obtain ⟨⟨⟨ho, hc⟩, hor⟩, hand⟩ := hl
    have hword : l.isWord w = false := by rcases hw with rfl | rfl <;> assumption
    have hrest := ih fun a ha => h a (List.mem_cons_of_mem l ha)
    simp [parts, ho, hc, hword, hrest, consFirst]

theorem heightAfter?_of_uncut {ls : List Lexeme} (h : ∀ l ∈ ls, isUncut l = true) (n : Nat) :
    heightAfter? n ls = some n := by
  induction ls with
  | nil => rfl
  | cons l ls ih =>
    have hl := h l (by simp)
    simp only [isUncut, Bool.not_eq_true', Bool.or_eq_false_iff] at hl
    obtain ⟨⟨⟨ho, hc⟩, -⟩, -⟩ := hl
    simp [heightAfter?, ho, hc, ih fun a ha => h a (List.mem_cons_of_mem l ha)]

theorem Clause.Simple.uncut {c : Clause} (hc : c.Simple) (g : Text) :
    ∀ l ∈ c.lexemes g, isUncut l = true := by
  intro l hl
  have hspelling := hc.no_connective g l hl
  have hwords : l.isWord "and".toList = false ∧ l.isWord "or".toList = false := by
    simp only [connectiveSpelling] at hspelling
    split at hspelling
    · cases hspelling
    · next hand =>
      split at hspelling
      · cases hspelling
      · next hor => exact ⟨Bool.not_eq_true _ ▸ hand, Bool.not_eq_true _ ▸ hor⟩
  have hkinds : l.is .parenLeft = false ∧ l.is .parenRight = false := by
    cases c with
    | member => cases hc.no_list
    | compare left before relation behind right =>
      have item {i : Item} {g : Text} (hl : l ∈ spaced g i.tokens) :
          l.is .parenLeft = false ∧ l.is .parenRight = false := by
        have hk := i.kind_of_mem (mem_spaced hl)
        simp only [List.mem_cons, List.not_mem_nil, or_false] at hk
        rcases hk with h | h | h | h | h <;> simp [Lexeme.is, h]
      rcases List.mem_append.mp hl with hl | hl
      · cases left with
        | item i => exact item hl
        | subject x =>
          have hbare := hc.settled.bare x rfl
          rw [Side.lexemes, x.lexemes_of_bare hbare.1 hbare.2] at hl
          rw [List.mem_singleton.mp hl]
          exact ⟨rfl, rfl⟩
      · rcases List.mem_cons.mp hl with rfl | hl
        · cases relation <;> exact ⟨rfl, rfl⟩
        · exact item hl
  simp only [isUncut, hkinds, hwords, Bool.or_self, Bool.not_false]

/-- Whether a marker holds. -/
def Clause.marker : Clause → Option Bool
  | .compare (.item _) _ _ _ (.number _ digits) => some (digits == ['1'])
  | _ => none

theorem Clause.marker?_lexemes {c : Clause} (hc : c.Spelled) (g : Text) :
    marker? (c.lexemes g) = c.marker := by
  match c, hc with
  | .member _ _ _ _ _ _, hc => cases hc.simple.no_list
  | .compare (.item i) before relation behind right, hc =>
    obtain ⟨rfl, hrel, holds, rfl⟩ := hc.simple.marked _ _ _ _ _ rfl
    rcases hrel with rfl | rfl
    · have hsign := hc.no_equal .equals rfl
      cases hsign
    · cases holds <;> rfl
  | .compare (.subject x) before relation behind right, hc =>
    have hbare := hc.simple.settled.bare x rfl
    rw [lexemes, Side.lexemes, x.lexemes_of_bare hbare.1 hbare.2]
    obtain ⟨t, ts, ht⟩ := List.exists_cons_of_ne_nil right.tokens_ne_nil
    cases ts <;> simp [ht, spaced, marker?, Lexeme.is, word, marker, Reading.unspaced]

namespace Rule

/-- What the lexemes of a rule are read as. -/
def reading (gap : Text) : Rule k → Reading
  | .clause c =>
    match c.marker with
    | some holds => .marker holds
    | none => .atom (c.lexemes gap)
  | .group inside r _ => .group (r.reading inside)
  | .part r | .whole r => r.reading gap
  | .both l j r => .both (l.reading gap) (r.reading j.behind)
  | .either l j r => .either (l.reading gap) (r.reading j.behind)

theorem heightAfter?_lexemes {r : Rule k} (hr : r.Formed Clause.Simple) (g : Text) (n : Nat) :
    heightAfter? n (r.lexemes g) = some n := by
  have joint {w t g : Text} (h : Spells w t) (hw : IsConnective w) (n : Nat) (ls : List Lexeme) :
      heightAfter? n (⟨g, word t⟩ :: ls) = heightAfter? n ls := rfl
  induction r generalizing g n with
  | clause c => exact heightAfter?_of_uncut (hr.uncut g) n
  | group inside r before ih =>
    have hopen (ls : List Lexeme) :
        heightAfter? n (⟨g, opening⟩ :: ls) = heightAfter? (n + 1) ls := rfl
    rw [lexemes, hopen, heightAfter?_append, ih hr.2.1]
    rfl
  | part r ih => exact ih hr g n
  | whole r ih => exact ih hr g n
  | both l j r ihl ihr =>
    rw [lexemes, heightAfter?_append, ihl hr.1]
    exact ihr hr.2.2 _ n
  | either l j r ihl ihr =>
    rw [lexemes, heightAfter?_append, ihl hr.1]
    exact ihr hr.2.2 _ n

/-- A rule is read as it is built. -/
theorem parses {r : Rule k} (hr : r.Formed Clause.Spelled) (g : Text) :
    Parses k (r.lexemes g) (r.reading g) := by
  have height {k : Rank} {r : Rule k} (hr : r.Formed Clause.Spelled) (g : Text) :
      heightAfter? 0 (r.lexemes g) = some 0 :=
    heightAfter?_lexemes (hr.mono fun _ h => h.simple) g 0
  induction r generalizing g with
  | clause c =>
    have huncut := hr.simple.uncut g
    refine ⟨parts_of_uncut (.inl rfl) huncut 0, parts_of_uncut (.inr rfl) huncut 0, ?_⟩
    have hinside : inside? (c.lexemes g) = none := by
      cases hc : c.lexemes g with
      | nil => rfl
      | cons l ls =>
        have hl := huncut l (by rw [hc]; simp)
        simp only [isUncut, Bool.not_eq_true', Bool.or_eq_false_iff] at hl
        simp [inside?, hl.1.1.1]
    rw [lexemes]
    cases hm : c.marker <;> simp [Reading.ofPiece, hinside, c.marker?_lexemes hr, reading, hm]
  | group inside r before ih =>
    have hh := height hr.2.1 inside
    have hin : inside? (⟨g, opening⟩ :: (r.lexemes inside ++ [⟨before, closing⟩])) =
        some (r.lexemes inside) := inside?_eq_some_iff.mpr ⟨_, _, rfl, rfl, rfl, rfl, hh⟩
    refine ⟨Reading.parts_group _ rfl rfl rfl hh, Reading.parts_group _ rfl rfl rfl hh, ?_⟩
    exact (Reading.ofPiece_of_inside? hin).trans (congrArg _ (ih hr.2.1 inside))
  | part r ih =>
    obtain ⟨hor, hand, hp⟩ := ih hr g
    exact ⟨hor, (Reading.ofPart_of_piece hand).trans hp⟩
  | whole r ih =>
    obtain ⟨hor, hp⟩ := ih hr g
    exact (Reading.ofLexemes_of_part hor).trans hp
  | both l j r ihl ihr =>
    obtain ⟨hlor, hland, hlp⟩ := ihl hr.1 g
    obtain ⟨hror, hrp⟩ := ihr hr.2.2 j.behind
    have hd := depthAfter_of_height (height hr.1 g)
    have hor : (⟨j.before, word j.text⟩ : Lexeme).isWord "or".toList = false :=
      hr.2.1.spells.isWord
    have hand : (⟨j.before, word j.text⟩ : Lexeme).isWord "and".toList = true :=
      hr.2.1.spells.isWord
    refine ⟨Reading.parts_append_of_ne rfl rfl hor hlor hd hror, ?_⟩
    rw [lexemes, Reading.ofPart, Reading.parts_append_of_eq rfl rfl hand hland hd, List.map_cons,
      Reading.chain_cons _ _ (by simp [parts_ne_nil]), hlp]
    exact congrArg _ hrp
  | either l j r ihl ihr =>
    obtain ⟨hlor, hlp⟩ := ihl hr.1 g
    have hrp := ihr hr.2.2 j.behind
    have hd := depthAfter_of_height (height hr.1 g)
    have hor : (⟨j.before, word j.text⟩ : Lexeme).isWord "or".toList = true :=
      hr.2.1.spells.isWord
    rw [lexemes, Parses, Reading.ofLexemes_eq, Reading.parts_append_of_eq rfl rfl hor hlor hd,
      List.map_cons, Reading.chain_cons _ _ (by simp [parts_ne_nil]), hlp, ← Reading.ofLexemes_eq]
    exact congrArg _ hrp

/-- The gap before a rule is before its first token. -/
theorem lexemes_gap {r : Rule k} (hr : r.Formed Clause.Simple) :
    ∃ t ls, ∀ g, r.lexemes g = ⟨g, t⟩ :: ls := by
  induction r with
  | clause c =>
    match c, hr with
    | .member _ _ _ _ _ _, hr => cases Clause.Simple.no_list hr
    | .compare left before relation behind right, hr =>
      obtain ⟨t, ht, -⟩ := Clause.Simple.left_token hr
      exact ⟨t, _, fun g => by rw [lexemes, Clause.lexemes, ht]; rfl⟩
  | group inside r before _ => exact ⟨opening, _, fun g => rfl⟩
  | part r ih => exact ih hr
  | whole r ih => exact ih hr
  | both l j r ihl _ =>
    obtain ⟨t, ls, ht⟩ := ihl hr.1
    exact ⟨t, _, fun g => by rw [lexemes, ht]; rfl⟩
  | either l j r ihl _ =>
    obtain ⟨t, ls, ht⟩ := ihl hr.1
    exact ⟨t, _, fun g => by rw [lexemes, ht]; rfl⟩

/-- The text of a rule without white space around it. -/
def trimmed (r : Rule k) : Text :=
  r.text [] []

theorem flatMap_lexemes {r : Rule k} (hr : r.Formed Clause.Simple) (g : Text) :
    (r.lexemes g).flatMap Lexeme.text = g ++ r.trimmed := by
  obtain ⟨t, ls, h⟩ := lexemes_gap hr
  simp [trimmed, text, h, Lexeme.text]

theorem slice_lexemes {r : Rule k} (hr : r.Formed Clause.Simple) (g : Text) :
    slice (r.lexemes g) = r.trimmed := by
  obtain ⟨t, ls, h⟩ := lexemes_gap hr
  simp [trimmed, text, h, slice, Lexeme.text]

/-- Whether a connective stands outside parentheses. -/
def isCompound : Rule k → Bool
  | .clause _ | .group _ _ _ => false
  | .part r | .whole r => r.isCompound
  | .both _ _ _ | .either _ _ _ => true

/-- In parentheses if a connective stands in it. -/
def wrapped : Rule .whole → Rule .piece
  | .whole (.part r) => r
  | .whole (.both l j r) => .group [] (.whole (.both l j r)) []
  | .either l j r => .group [] (.either l j r) []

end Rule

/-- What is left of a rule without its markers. -/
inductive Outcome (k : Rank)
  | always
  | never
  | left (r : Rule k)

namespace Outcome

def map (f : Rule k → Rule m) : Outcome k → Outcome m
  | .always => .always
  | .never => .never
  | .left r => .left (f r)

def both : Outcome .piece → Outcome .part → Outcome .part
  | .never, _ => .never
  | _, .never => .never
  | .always, v => v
  | v, .always => v.map .part
  | .left l, .left r => .left (.both l ⟨[' '], "and".toList, [' ']⟩ r)

def either : Outcome .part → Outcome .whole → Outcome .whole
  | .always, _ => .always
  | _, .always => .always
  | .never, v => v
  | v, .never => v.map .whole
  | .left l, .left r => .left (.either l ⟨[' '], "or".toList, [' ']⟩ r)

def verdict : Outcome k → Verdict
  | .always => .always
  | .never => .never
  | .left r => .filter r.trimmed r.isCompound

def truth (v : Clause → Bool) : Outcome k → Bool
  | .always => true
  | .never => false
  | .left r => r.truth v

def Formed (P : Clause → Prop) : Outcome k → Prop
  | .always | .never => True
  | .left r => r.Formed P

end Outcome

namespace Rule

/-- The rule with its markers folded away. -/
def folded : Rule k → Outcome k
  | .clause c =>
    match c.marker with
    | some true => .always
    | some false => .never
    | none => .left (.clause c)
  | .group _ r _ => r.folded.map wrapped
  | .part r => r.folded.map .part
  | .whole r => r.folded.map .whole
  | .both l _ r => l.folded.both r.folded
  | .either l _ r => l.folded.either r.folded

theorem formed_wrapped {P : Clause → Prop} {r : Rule .whole} (hr : r.Formed P) :
    r.wrapped.Formed P := by
  match r with
  | .whole (.part r) => exact hr
  | .whole (.both l j r) => exact ⟨isGap_nil, hr, isGap_nil⟩
  | .either l j r => exact ⟨isGap_nil, hr, isGap_nil⟩

theorem formed_folded {P : Clause → Prop} {r : Rule k} (hr : r.Formed P) :
    r.folded.Formed P := by
  induction r with
  | clause c =>
    simp only [folded]
    split
    · trivial
    · trivial
    · exact hr
  | group inside r before ih =>
    have h := ih hr.2.1
    rw [folded]
    cases hf : r.folded with
    | always => trivial
    | never => trivial
    | left r' =>
      rw [hf] at h
      exact formed_wrapped h
  | part r ih =>
    have h := ih hr
    rw [folded]
    cases hf : r.folded <;> rw [hf] at h <;> exact h
  | whole r ih =>
    have h := ih hr
    rw [folded]
    cases hf : r.folded <;> rw [hf] at h <;> exact h
  | both l j r ihl ihr =>
    have hl := ihl hr.1
    have hr := ihr hr.2.2
    rw [folded]
    cases hfl : l.folded <;> rw [hfl] at hl <;> cases hfr : r.folded <;> rw [hfr] at hr <;>
      first | trivial | exact hl | exact hr | exact ⟨hl, joint_of_spelled rfl, hr⟩
  | either l j r ihl ihr =>
    have hl := ihl hr.1
    have hr := ihr hr.2.2
    rw [folded]
    cases hfl : l.folded <;> rw [hfl] at hl <;> cases hfr : r.folded <;> rw [hfr] at hr <;>
      first | trivial | exact hl | exact hr | exact ⟨hl, joint_of_spelled rfl, hr⟩

theorem formed_of_folded {P : Clause → Prop} {r r' : Rule k} (hr : r.Formed P)
    (h : r.folded = .left r') : r'.Formed P := by
  have hf := formed_folded hr
  rw [h] at hf
  exact hf

theorem truth_wrapped (v : Clause → Bool) (r : Rule .whole) : r.wrapped.truth v = r.truth v := by
  match r with
  | .whole (.part r) | .whole (.both l j r) | .either l j r => rfl

theorem truth_folded {P : Clause → Prop} {v : Clause → Bool}
    (hv : ∀ c holds, P c → c.marker = some holds → v c = holds) {r : Rule k} (hr : r.Formed P) :
    r.folded.truth v = r.truth v := by
  induction r with
  | clause c =>
    have h := hv c
    simp only [folded, truth]
    cases hm : c.marker with
    | none => rfl
    | some holds =>
      rw [h holds hr hm]
      cases holds <;> rfl
  | group inside r before ih =>
    have h := ih hr.2.1
    rw [folded]
    cases hf : r.folded <;> rw [hf] at h <;>
      first | exact h | exact (truth_wrapped v _).trans h
  | part r ih =>
    have h := ih hr
    rw [folded]
    cases hf : r.folded <;> rw [hf] at h <;> exact h
  | whole r ih =>
    have h := ih hr
    rw [folded]
    cases hf : r.folded <;> rw [hf] at h <;> exact h
  | both l j r ihl ihr =>
    have hl := ihl hr.1
    have hr := ihr hr.2.2
    rw [folded, truth, ← hl, ← hr]
    cases l.folded <;> cases r.folded <;>
      simp [Outcome.both, Outcome.truth, Outcome.map, truth]
  | either l j r ihl ihr =>
    have hl := ihl hr.1
    have hr := ihr hr.2.2
    rw [folded, truth, ← hl, ← hr]
    cases l.folded <;> cases r.folded <;>
      simp [Outcome.either, Outcome.truth, Outcome.map, truth]

theorem verdict_wrapped (r : Rule .whole) :
    (Outcome.left r.wrapped).verdict = (Outcome.left r).verdict.group := by
  match r with
  | .whole (.part (.clause c)) => rfl
  | .whole (.part (.group inside r before)) => rfl
  | .whole (.both l j r) =>
    simp [Outcome.verdict, wrapped, trimmed, text, lexemes, isCompound, Verdict.group, Lexeme.text,
      opening, closing]
  | .either l j r =>
    simp [Outcome.verdict, wrapped, trimmed, text, lexemes, isCompound, Verdict.group, Lexeme.text,
      opening, closing]

theorem trimmed_both (l : Rule .piece) {r : Rule .part} (hr : r.Formed Clause.Simple) :
    (both l ⟨[' '], "and".toList, [' ']⟩ r).trimmed = l.trimmed ++ " and ".toList ++ r.trimmed := by
  simp [trimmed, text, lexemes, flatMap_lexemes hr [' '], Lexeme.text, word]

theorem trimmed_either (l : Rule .part) {r : Rule .whole} (hr : r.Formed Clause.Simple) :
    (either l ⟨[' '], "or".toList, [' ']⟩ r).trimmed = l.trimmed ++ " or ".toList ++ r.trimmed := by
  simp [trimmed, text, lexemes, flatMap_lexemes hr [' '], Lexeme.text, word]

/-- Folding a rule is folding what it is read as. -/
theorem verdict_reading {r : Rule k} (hr : r.Formed Clause.Simple) (g : Text) :
    (r.reading g).verdict = r.folded.verdict := by
  induction r generalizing g with
  | clause c =>
    have hslice := slice_lexemes (r := .clause c) hr g
    simp only [reading, folded]
    cases hm : c.marker with
    | none => exact congrArg (Verdict.filter · false) hslice
    | some holds => cases holds <;> rfl
  | group inside r before ih =>
    rw [reading, Reading.verdict, ih hr.2.1, folded]
    cases r.folded with
    | always => rfl
    | never => rfl
    | left r' => exact (verdict_wrapped r').symm
  | part r ih =>
    rw [reading, ih hr, folded]
    cases r.folded <;> rfl
  | whole r ih =>
    rw [reading, ih hr, folded]
    cases r.folded <;> rfl
  | both l j r ihl ihr =>
    rw [reading, Reading.verdict, ihl hr.1, ihr hr.2.2, folded]
    cases hl : l.folded <;> cases hf : r.folded <;>
      first
        | rfl
        | exact congrArg (Verdict.filter · true) (trimmed_both _ (formed_of_folded hr.2.2 hf)).symm
  | either l j r ihl ihr =>
    rw [reading, Reading.verdict, ihl hr.1, ihr hr.2.2, folded]
    cases hl : l.folded <;> cases hf : r.folded <;>
      first
        | rfl
        | exact congrArg (Verdict.filter · true) (trimmed_either _ (formed_of_folded hr.2.2 hf)).symm

/-- What always holds, as a filter. -/
def markerRule : Rule .whole :=
  .whole (.part (.clause
    (.compare (.item (.number false ['1'])) [' '] .eqWord [' '] (.number false ['1']))))

theorem ready_markerRule : markerRule.Formed Clause.Ready := by
  have hone : Token.Numeral ['1'] := numeral_digit rfl
  refine ⟨⟨⟨⟨⟨hone, isGap_space, isGap_space, hone, fun _ => ⟨by simp, by simp⟩⟩, ?_, trivial, trivial⟩,
    ?_, rfl⟩, ?_, ?_⟩, ?_⟩
  · intro x hx
    cases hx
  · intro i before relation behind right he
    cases he
    exact ⟨rfl, .inr rfl, true, rfl⟩
  · intro r hr
    cases hr
    rfl
  · intro r hr
    cases hr
    rfl
  · intro i hi
    cases hi
    rfl

/-- The truths of clauses that say of a marker what it says. -/
def Respects (v : Clause → Bool) : Prop :=
  ∀ c holds, c.Ready → c.marker = some holds → v c = holds

/-- The tenth pass leaves a rule that holds where the one given does, or refuses a rule that
never holds. -/
theorem foldMarkers_text {r : Rule .whole} (hr : r.Formed Clause.Ready) {lead tail : Text}
    (hlead : IsGap lead) (htail : IsGap tail) :
    match foldMarkers (r.text lead tail) with
    | .ok t => ∃ (r' : Rule .whole) (lead' tail' : Text), t = r'.text lead' tail' ∧
        IsGap lead' ∧ IsGap tail' ∧ r'.Formed Clause.Ready ∧
        ∀ v, Respects v → r'.truth v = r.truth v
    | .error e => e = .vacuous ∧ ∀ v, Respects v → r.truth v = false := by
  have hspelled : r.Formed Clause.Spelled := hr.mono fun _ h => h.spelled
  have hsimple : r.Formed Clause.Simple := hr.mono fun _ h => h.spelled.simple
  have hs : scan (r.text lead tail) = .ok ⟨r.lexemes lead, tail⟩ :=
    scan_eq_ok_iff.mpr
      ⟨rfl, r.fit (hsimple.mono fun _ h => h.settled.formed) hlead htail, htail⟩
  have htruth (v : Clause → Bool) (hv : Respects v) := truth_folded hv hr
  cases hm : hasMarker (r.lexemes lead) with
  | false =>
    simp only [foldMarkers, hs, hm]
    exact ⟨r, lead, tail, rfl, hlead, htail, hr, fun _ _ => rfl⟩
  | true =>
    have hparse : Reading.ofLexemes (r.lexemes lead) = r.reading lead := parses hspelled lead
    simp only [foldMarkers, hs, hm, if_true, hparse, verdict_reading hsimple]
    cases hf : r.folded with
    | never =>
      rw [hf] at htruth
      exact ⟨rfl, fun v hv => (htruth v hv).symm⟩
    | always =>
      rw [hf] at htruth
      refine ⟨markerRule, [], [], by decide, isGap_nil, isGap_nil, ready_markerRule, ?_⟩
      exact fun v hv => (hv _ true ready_markerRule rfl).trans (htruth v hv)
    | left r' =>
      rw [hf] at htruth
      exact ⟨r', [], [], rfl, isGap_nil, isGap_nil, formed_of_folded hr hf, htruth⟩

end Rule

end Language

end WhereFilter
